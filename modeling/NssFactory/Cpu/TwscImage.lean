import NssFactory.Cpu.ImageMatch
import NssFactory.Lib.Buffer

/-!
# The image filter of TWSC

`twsc_image` of `cpu/twsc/image.cpp`, with the parts of `cpu/common/image_internal.hpp` that it
calls. The groups of a frame are gathered into jobs, as many as the memory left allows, and go
through `twsc_filter_full_batch` together; the patches that come back are added in the order of
the references. The jobs are used again from flush to flush and from frame to frame.

The arithmetic of floats and doubles is a parameter (`Arithmetic`), and so is what the batch makes
of one item. An error carries what the memory held where it was thrown.

`twscImage_eq` says that the number of jobs does not show: `twscDirect` filters and adds each
group in its own turn.
-/

namespace NssFactory.Cpu

open Loops

/-- The operations of floats and doubles that the filter uses. -/
structure Arithmetic (D : Type) where
  ofFloat : F32 → D
  ofInt : Int → D
  add : D → D → D
  sub : D → D → D
  mul : D → D → D
  div : D → D → D
  sqrt : D → D
  abs : D → D
  lt : D → D → Bool
  isFinite : D → Bool
  toFloat : D → F32
  maxFloat : D
  addFloat : F32 → F32 → F32
  imageSsd : List F32 → List F32 → F32
  zero_addFloat : ∀ a b, addFloat F32.zero (imageSsd a b) = imageSsd a b

/-- `pixels` holds the rows one after the other. -/
structure ImagePlane where
  width : Int
  height : Int
  pixels : List F32

structure ImageFrame where
  planes : Nat → ImagePlane
  sigma : Nat → F32

structure ImageSequence where
  size : Nat
  frames : Nat → ImageFrame

structure TwscSolverOptions (D : Type) where
  iterations : Int
  rho : D
  mu : D
  tolerance : D

structure TwscImageOptions (D : Type) where
  block : Int
  group : Int
  iterations : Int
  step : Int
  window : Int
  radius : Int
  psNum : Int
  psRange : Int
  lambda2 : D
  delta : D
  solver : TwscSolverOptions D
  planesAlone : Bool

structure TwscSolverStats (D : Type) where
  converged : Bool
  doubleSvd : Bool
  sylvesterResidual : D

/-- An item of `twsc_filter_full_batch`: `n` columns of `m` samples. -/
structure TwscFullBatchItem (D : Type) where
  m : Nat
  n : Nat
  group : List (List F32)
  rowSigma : List F32
  columnSigma : List F32
  options : TwscSolverOptions D

/-- What the batch writes for an item. -/
structure TwscFullResult (D : Type) where
  group : Nat → Nat → F32
  columnWeight : Nat → F32
  stats : TwscSolverStats D

structure ImageFilterStats (D : Type) where
  groups : UInt64
  maxIterationGroups : UInt64
  doubleSvdGroups : UInt64
  maxSylvesterResidual : D

structure AccumPlane (D : Type) where
  width : Int
  height : Int
  numerator : Nat → D
  denominator : Nat → D

/-- A call of `add_patch` on plane `channel` of frame `t` of the accumulator. -/
structure AddPatch where
  t : Int
  channel : Nat
  x : Int
  y : Int
  patch : List F32
  weight : F32

structure ImageContributions (D : Type) where
  numerator : ImageSequence
  denominator : ImageSequence
  stats : ImageFilterStats D

/-- The caller's sequences and what the function keeps beside the jobs. `calls` records the
calls of `add_patch`. -/
structure Memory (D : Type) where
  input : ImageSequence
  reference : Option ImageSequence
  estimate : ImageSequence
  rowSigma : Nat → F32
  accum : Nat → Nat → AccumPlane D
  stats : ImageFilterStats D
  calls : List AddPatch

structure Thrown (D : Type) where
  message : String
  memory : Memory D

structure Job (D : Type) where
  patches : Nat → Nat → F32
  columnSigma : Nat → F32
  columnWeight : Nat → F32
  found : Nat → Match
  count : Nat
  stats : TwscSolverStats D

/-- Planes of one size that are filtered together, in an iteration. -/
structure PlaneGroup where
  iteration : Nat
  first : Nat
  channels : List Nat
  width : Int
  height : Int

/-- The numbers of jobs that a plane group can have. -/
abbrev JobCapacity := { n : Nat // 1 ≤ n ∧ n ≤ 16 }

/-! ## Planes -/

def ImagePlane.pixel (p : ImagePlane) (i : Int) : F32 := p.pixels.getD i.toNat F32.zero

def ImagePlane.empty : ImagePlane := ⟨0, 0, []⟩

/-- The block of a plane whose rows are `width` apart, as `image_ssd` reads it. -/
def ImagePlane.blockAt (p : ImagePlane) (width block x y : Int) : List F32 :=
  (Int.range 0 block).flatMap fun iy =>
    (Int.range 0 block).map fun ix => p.pixel ((y + iy) * width + x + ix)

def clampi (x lo hi : Int) : Int := if x < lo then lo else if x > hi then hi else x

/-- Sample `k` of what `pack_patch` writes. -/
def packPatch (p : ImagePlane) (stride x y block width height : Int) (k : Nat) : F32 :=
  let py := (k : Int) / block
  let px := (k : Int) % block
  if x ≥ 0 ∧ y ≥ 0 ∧ x + block ≤ width ∧ y + block ≤ height then p.pixel ((y + py) * stride + x + px)
  else p.pixel (clampi (y + py) 0 (height - 1) * stride + clampi (x + px) 0 (width - 1))

/-- The positions of an axis: `fuel` steps at most from `x` to `last`. -/
def axisFrom (step last : Int) : Nat → Int → List Int
  | 0, x => [x]
  | fuel + 1, x => if x = last then [x] else x :: axisFrom step last fuel (min (x + step) last)

/-- `raster`: the queries in order. -/
def raster (width height block step : Int) : Except String (List (Int × Int)) :=
  if width < block ∨ height < block ∨ step < 1 ∨ step > block then
    .error "nss: selected plane is smaller than block_size or invalid step"
  else
    .ok ((axisFrom step (height - block) (height - block).toNat 0).flatMap fun y =>
      (axisFrom step (width - block) (width - block).toNat 0).map fun x => (x, y))

namespace Arithmetic

variable {D : Type} (A : Arithmetic D)

def zero : D := A.ofInt 0

def finiteFloat (x : D) : Except String F32 :=
  if ¬A.isFinite x ∨ A.lt A.maxFloat (A.abs x) then .error "nss: unrepresentable image estimate"
  else .ok (A.toFloat x)

/-- `std::max`. -/
def max (a b : D) : D := if A.lt a b then b else a

/-- `add_patch` on a plane of the accumulator. -/
def addPatch (a : AccumPlane D) (block : Int) (call : AddPatch) : AccumPlane D :=
  (Int.range 0 block).foldl (fun a iy => (Int.range 0 block).foldl (fun a ix =>
    let index := ((call.y + iy) * a.width + call.x + ix).toNat
    let value := A.ofFloat (call.patch.getD (iy * block + ix).toNat F32.zero)
    let weight := A.ofFloat call.weight
    { a with
      numerator := Function.update a.numerator index
        (A.add (a.numerator index) (A.mul value weight))
      denominator := Function.update a.denominator index
        (A.add (a.denominator index) weight) }) a) a

end Arithmetic

/-- What `twsc_image` is given beside the sequences, and what it calls: the batch makes
`filterFull item` of each of its items. -/
structure Twsc (D : Type) where
  arith : Arithmetic D
  filterFull : TwscFullBatchItem D → Except String (TwscFullResult D)
  build : ImageBuild
  planes : Int
  center : Int
  options : TwscImageOptions D

namespace Twsc

variable {D : Type} (w : Twsc D) (g : PlaneGroup)

/-- A statement that may throw. -/
def attempt {α : Type} (s : Memory D) (x : Except String α) : Except (Thrown D) α :=
  x.mapError fun message => ⟨message, s⟩

def area : Nat := (w.options.block * w.options.block).toNat

/-- The samples of a column. -/
def m : Nat := w.area * g.channels.length

def channel (c : Nat) : Nat := g.channels.getD c 0

/-! ## A query -/

def guide (s : Memory D) (t c : Int) : ImagePlane :=
  ((s.reference.getD s.estimate).frames t.toNat).planes (channel g c.toNat)

def search : ImageSearch :=
  ⟨w.options.block, w.options.group, w.options.window, w.options.radius, w.options.psNum,
    w.options.psRange⟩

/-- The search for the reference at `(x, y)` of frame `t0`. -/
def scan (s : Memory D) (t0 x y : Int) : ImageScan where
  frames := s.input.size
  nch := g.channels.length
  width := g.width
  height := g.height
  t0 := t0
  x0 := x
  y0 := y
  cfg := w.search
  ssd := fun c t x' y' => w.arith.imageSsd
    ((guide g s t0 c).blockAt g.width w.options.block x y)
    ((guide g s t c).blockAt g.width w.options.block x' y')
  add := w.arith.addFloat
  zero_add := fun _ _ _ => w.arith.zero_addFloat _ _

/-- Sample `k` of channel `c` of a match. -/
def packed (s : Memory D) (found : Match) (c k : Nat) : F32 :=
  packPatch ((s.estimate.frames found.t.toNat).planes (channel g c)) g.width found.x found.y
    w.options.block g.width g.height k

/-- The channels of a match go into column `j`. -/
def packColumn (s : Memory D) (found : Match) (j : Nat) (patches : Nat → Nat → F32) :
    Nat → Nat → F32 :=
  (List.range g.channels.length).foldl
    (fun patches c => fun j' r =>
      if j' = j ∧ c * w.area ≤ r ∧ r < (c + 1) * w.area then w.packed g s found c (r - c * w.area)
      else patches j' r)
    patches

def rms2 (s : Memory D) (found : Match) : D :=
  (List.range g.channels.length).foldl
    (fun sum c =>
      let noise := w.arith.ofFloat ((s.input.frames found.t.toNat).sigma (channel g c))
      w.arith.add sum (w.arith.mul noise noise))
    w.arith.zero

def residual (s : Memory D) (found : Match) : D :=
  (List.range g.channels.length).foldl
    (fun sum c =>
      if g.iteration > 0 then
        (Int.range 0 w.options.block).foldl (fun sum iy =>
          (Int.range 0 w.options.block).foldl (fun sum ix =>
            let original := (s.input.frames found.t.toNat).planes (channel g c)
            let d := w.arith.sub
              (w.arith.ofFloat (original.pixel ((found.y + iy) * g.width + found.x + ix)))
              (w.arith.ofFloat (w.packed g s found c (iy * w.options.block + ix).toNat))
            w.arith.add sum (w.arith.mul d d)) sum) sum
      else sum)
    w.arith.zero

def columnSigma (s : Memory D) (found : Match) : Except String F32 :=
  w.arith.finiteFloat (w.arith.mul w.options.lambda2 (w.arith.sqrt (w.arith.abs
    (w.arith.sub (w.arith.div (w.rms2 g s found) (w.arith.ofInt g.channels.length))
      (w.arith.div (w.residual g s found) (w.arith.ofInt (w.m g)))))))

/-- Column `j` of a job. -/
def fillColumn (s : Memory D) (job : Job D) (j : Nat) : Except String (Job D) := do
  let patches := w.packColumn g s (job.found j) j job.patches
  let sigma ← w.columnSigma g s (job.found j)
  return { job with patches := patches, columnSigma := Function.update job.columnSigma j sigma }

/-- The query at `(x, y)` of frame `t0` fills a job. -/
def fill (s : Memory D) (job : Job D) (p : Int × Int × Int) : Except (Thrown D) (Job D) :=
  attempt s (do
    let found ← (w.scan g s p.1 p.2.1 p.2.2).imageMatch w.build
    let job := { job with found := fun j => found.getD j (job.found j), count := found.length }
    (List.range job.count).foldlM (w.fillColumn g s) job)

/-! ## A flush -/

/-- The item of a job: the batch reads the first `count` columns. -/
def item (s : Memory D) (job : Job D) : TwscFullBatchItem D where
  m := w.m g
  n := job.count
  group := (List.range job.count).map fun j => (List.range (w.m g)).map (job.patches j)
  rowSigma := (List.range (w.m g)).map s.rowSigma
  columnSigma := (List.range job.count).map job.columnSigma
  options := w.options.solver

/-- The batch on a job, in place. -/
def process (s : Memory D) (job : Job D) : Except (Thrown D) (Job D) := do
  let result ← attempt s (w.filterFull (w.item g s job))
  return { job with
    patches := fun j r =>
      if j < job.count ∧ r < w.m g then result.group j r else job.patches j r
    columnWeight := fun j => if j < job.count then result.columnWeight j else job.columnWeight j
    stats := result.stats }

def addStats (stats : ImageFilterStats D) (result : TwscSolverStats D) : ImageFilterStats D where
  groups := stats.groups + 1
  maxIterationGroups := stats.maxIterationGroups + if result.converged then 0 else 1
  doubleSvdGroups := stats.doubleSvdGroups + if result.doubleSvd then 1 else 0
  maxSylvesterResidual := w.arith.max stats.maxSylvesterResidual result.sylvesterResidual

def addPatch (s : Memory D) (call : AddPatch) : Memory D :=
  { s with
    accum := Function.update s.accum call.t.toNat (Function.update (s.accum call.t.toNat)
      call.channel (w.arith.addPatch (s.accum call.t.toNat call.channel) w.options.block call))
    calls := s.calls ++ [call] }

def commit (s : Memory D) (job : Job D) : Memory D :=
  (List.range job.count).foldl
    (fun s j => (List.range g.channels.length).foldl
      (fun s c => w.addPatch s
        ⟨(job.found j).t, channel g c, (job.found j).x, (job.found j).y,
          (List.range w.area).map fun k => job.patches j (c * w.area + k), job.columnWeight j⟩)
      s)
    { s with stats := w.addStats s.stats job.stats }

def jobs : JobBuffer (Thrown D) (Memory D) (Job D) (Int × Int × Int) where
  fill := w.fill g
  process := w.process g
  commit := w.commit g

/-! ## A frame, a plane group, an iteration -/

def fillRowSigma (s : Memory D) (t0 : Int) : Memory D :=
  { s with
    rowSigma := (List.range g.channels.length).foldl
      (fun rows c => fun r =>
        if c * w.area ≤ r ∧ r < (c + 1) * w.area then
          (s.input.frames t0.toNat).sigma (channel g c)
        else rows r)
      s.rowSigma }

/-- The queries of a frame in order. -/
def queries (s : Memory D) (t0 : Int) : Except (Thrown D) (List (Int × Int × Int)) := do
  let places ← attempt s (raster g.width g.height w.options.block w.options.step)
  return places.map fun p => (t0, p.1, p.2)

def frame (capacity : Nat) (state : Memory D × (Nat → Job D)) (t0 : Int) :
    Except (Thrown D) (Memory D × (Nat → Job D)) := do
  let s := w.fillRowSigma g state.1 t0
  let places ← w.queries g s t0
  (w.jobs g).run capacity s state.2 places

/-- The frames whose references are queried. -/
def targets (s : Memory D) : List Int :=
  if (g.iteration : Int) + 1 = w.options.iterations then Int.range w.center (w.center + 1)
  else Int.range 0 s.input.size

def freshJob : Job D where
  patches := fun _ _ => F32.zero
  columnSigma := fun _ => F32.zero
  columnWeight := fun _ => F32.zero
  found := fun _ => ⟨0, 0, 0, F32.zero, 0⟩
  count := 0
  stats := ⟨false, false, w.arith.zero⟩

/-- A plane group with `capacity` jobs. -/
def bufferedGroup (capacity : Nat → Nat → JobCapacity) (s : Memory D) : Except (Thrown D) (Memory D) := do
  let (s, _) ← (w.targets g s).foldlM (w.frame g (capacity g.iteration g.first).1)
    (s, fun _ => w.freshJob)
  return s

/-- The planes from `first` on that form a group with it. -/
def planeGroup (s : Memory D) (iteration : Nat) (used : Nat → Bool) (first : Nat) :
    PlaneGroup × (Nat → Bool) :=
  let center := s.input.frames w.center.toNat
  let width := (center.planes first).width
  let height := (center.planes first).height
  let (channels, used) := ((List.range w.planes.toNat).filter fun c => first ≤ c).foldl
    (fun (state : List Nat × (Nat → Bool)) c =>
      if !state.2 c ∧ F32.zero.lt (center.sigma c) ∧ (c = first ∨ !w.options.planesAlone) ∧
          (center.planes c).width = width ∧ (center.planes c).height = height then
        (state.1 ++ [c], Function.update state.2 c true)
      else state)
    ([], used)
  (⟨iteration, first, channels, width, height⟩, used)

/-- The plane groups of an iteration; `group` runs one. -/
def planeGroups (group : PlaneGroup → Memory D → Except (Thrown D) (Memory D)) (iteration : Nat)
    (s : Memory D) : Except (Thrown D) (Memory D) := do
  let (s, _) ← (List.range w.planes.toNat).foldlM
    (fun (state : Memory D × (Nat → Bool)) first => do
      let sigma := (state.1.input.frames w.center.toNat).sigma first
      if state.2 first ∨ sigma.le F32.zero ∧ F32.zero.le sigma then return state
      else
        let (g, used) := w.planeGroup state.1 iteration state.2 first
        return (← group g state.1, used))
    (s, fun _ => false)
  return s

/-- Sequences whose planes are computed one after the other, those from `planes` on apart. -/
def sequence (size : Nat) (plane : Nat → Nat → Except String ImagePlane)
    (rest : Nat → Nat → ImagePlane) (sigma : Nat → Nat → F32) : Except String ImageSequence := do
  let frames ← (List.range size).mapM fun t => (List.range w.planes.toNat).mapM fun c => plane t c
  return ⟨size, fun t => ⟨fun c => (frames.getD t []).getD c (rest t c), sigma t⟩⟩

/-- The estimate moves towards the input before every iteration but the first. -/
def blend (s : Memory D) : Except String ImageSequence :=
  w.sequence s.input.size
    (fun t c => do
      let e := (s.estimate.frames t).planes c
      let y := (s.input.frames t).planes c
      let pixels ← (List.range e.pixels.length).mapM fun i =>
        let pixel := w.arith.ofFloat (e.pixel i)
        w.arith.finiteFloat (w.arith.add pixel
          (w.arith.mul w.options.delta (w.arith.sub (w.arith.ofFloat (y.pixel i)) pixel)))
      return { e with pixels := pixels })
    (fun t c => (s.estimate.frames t).planes c) (fun t => (s.estimate.frames t).sigma)

def accumulator (s : Memory D) : Nat → Nat → AccumPlane D := fun t c =>
  let p := (s.input.frames t).planes c
  ⟨p.width, p.height, fun _ => w.arith.zero, fun _ => w.arith.zero⟩

def finish (s : Memory D) : Except String ImageSequence :=
  w.sequence s.input.size
    (fun t c => do
      let p := s.accum t c
      let fallback := (s.input.frames t).planes c
      let pixels ← (List.range (p.width * p.height).toNat).mapM fun i =>
        if w.arith.lt w.arith.zero (p.denominator i) then
          w.arith.finiteFloat (w.arith.div (p.numerator i) (p.denominator i))
        else .ok (fallback.pixel i)
      return ⟨p.width, p.height, pixels⟩)
    (fun _ _ => ImagePlane.empty) (fun t => (s.input.frames t).sigma)

def contributions (s : Memory D) : Except String (ImageContributions D) := do
  let samples := fun (values : AccumPlane D → Nat → D) (t c : Nat) => do
    let p := s.accum t c
    let pixels ← (List.range (p.width * p.height).toNat).mapM fun i =>
      w.arith.finiteFloat (values p i)
    return (⟨p.width, p.height, pixels⟩ : ImagePlane)
  let numerator ← w.sequence s.input.size (samples AccumPlane.numerator)
    (fun _ _ => ImagePlane.empty) (fun t => (s.input.frames t).sigma)
  let denominator ← w.sequence s.input.size (samples AccumPlane.denominator)
    (fun _ _ => ImagePlane.empty) (fun _ _ => F32.zero)
  return ⟨numerator, denominator, s.stats⟩

/-- An iteration up to the sums of its patches. -/
def accumulate (group : PlaneGroup → Memory D → Except (Thrown D) (Memory D)) (iteration : Nat)
    (s : Memory D) : Except (Thrown D) (Memory D) := do
  let moves := w.arith.lt w.options.delta w.arith.zero || w.arith.lt w.arith.zero w.options.delta
  let estimate ← (if iteration > 0 ∧ moves then attempt s (w.blend s) else .ok s.estimate)
  let s := { s with estimate := estimate, accum := w.accumulator s }
  w.planeGroups group iteration s

/-- The iterations from `iteration` on; `left` of them at most. -/
def iterate (group : PlaneGroup → Memory D → Except (Thrown D) (Memory D)) :
    Nat → Nat → Memory D → Except (Thrown D) (ImageContributions D × Memory D)
  | 0, _, s => attempt s (.error "nss.TWSC: no iteration executed")
  | left + 1, iteration, s => do
    let s ← w.accumulate group iteration s
    if left = 0 then return (← attempt s (w.contributions s), s)
    else
      let estimate ← attempt s (w.finish s)
      iterate group left (iteration + 1) { s with estimate := estimate }

/-! ## The whole filter -/

def validate (input : ImageSequence) (reference : Option ImageSequence) : Except String Unit := do
  if input.size = 0 ∨ input.size > 33 ∨ w.center < 0 ∨ w.center ≥ input.size ∨ w.planes < 1 ∨
      w.planes > 3 ∨ (∃ r ∈ reference, r.size ≠ input.size) then
    .error "nss: invalid image sequence"
  for t in List.range input.size do
    for c in List.range w.planes.toNat do
      let p := (input.frames t).planes c
      let first := (input.frames 0).planes c
      let sigma := (input.frames t).sigma c
      if p.width < 1 ∨ p.height < 1 ∨ p.width ≠ first.width ∨ p.height ≠ first.height ∨
          (p.pixels.length : Int) ≠ p.width * p.height ∨ ¬F32.zero.le sigma ∨
          ¬sigma.isFiniteBits then
        .error "nss: invalid image plane/noise"
      if ¬p.pixels.all F32.isFiniteBits then .error "nss: nonfinite input sample"
      match reference with
      | none => pure ()
      | some r =>
        let rp := (r.frames t).planes c
        if rp.width ≠ p.width ∨ rp.height ≠ p.height ∨ rp.pixels.length ≠ p.pixels.length then
          .error "nss: invalid matching reference shape"
        if ¬rp.pixels.all F32.isFiniteBits then .error "nss: nonfinite matching reference"

def checkOptions : Except String Unit := do
  let o := w.options
  let one := w.arith.ofInt 1
  if w.arith.lt o.lambda2 w.arith.zero ∨ ¬w.arith.isFinite o.lambda2 ∨
      w.arith.lt o.delta w.arith.zero ∨ w.arith.lt one o.delta ∨ ¬w.arith.isFinite o.delta then
    .error "nss.TWSC: invalid lambda2/delta"
  if o.block < 1 ∨ o.block > 16 ∨ o.group < 1 ∨ o.group > 256 ∨ o.iterations < 1 ∨
      o.iterations > 64 ∨ o.step < 1 ∨ o.step > o.block then
    .error "nss.TWSC: invalid resolved block/group/step/iters"

def start (input : ImageSequence) (reference : Option ImageSequence) : Memory D where
  input := input
  reference := reference
  estimate := input
  rowSigma := fun _ => F32.zero
  accum := fun _ _ => ⟨0, 0, fun _ => w.arith.zero, fun _ => w.arith.zero⟩
  stats := ⟨0, 0, 0, w.arith.zero⟩
  calls := []

def filter (group : PlaneGroup → Memory D → Except (Thrown D) (Memory D)) (input : ImageSequence)
    (reference : Option ImageSequence) :
    Except (Thrown D) (ImageContributions D × Memory D) := do
  let s := w.start input reference
  attempt s (w.validate input reference)
  attempt s w.checkOptions
  w.iterate group w.options.iterations.toNat 0 s

/-- `twsc_image` with `capacity iteration first` jobs for the group of plane `first`. -/
def twscImage (capacity : Nat → Nat → JobCapacity) : ImageSequence → Option ImageSequence →
    Except (Thrown D) (ImageContributions D × Memory D) :=
  w.filter fun g => w.bufferedGroup g capacity

/-! ## What the filter is to do -/

/-- A plane group without buffer: each query in its own turn, in a job of its own. -/
def directGroup (s : Memory D) : Except (Thrown D) (Memory D) :=
  (w.targets g s).foldlM
    (fun s t0 => do
      let s := w.fillRowSigma g s t0
      let places ← w.queries g s t0
      places.foldlM ((w.jobs g).alone w.freshJob) s)
    s

def twscDirect : ImageSequence → Option ImageSequence →
    Except (Thrown D) (ImageContributions D × Memory D) :=
  w.filter w.directGroup

/-! ## A job, whatever its slot held before -/

/-- What a query reads: the matches, their columns and the noise of each. -/
structure Query where
  found : List Match
  group : List (List F32)
  sigma : List F32

/-- What is added for a query. -/
structure Answer (D : Type) where
  found : List Match
  group : List (List F32)
  weight : List F32
  stats : TwscSolverStats D

def noMatch : Match := ⟨0, 0, 0, F32.zero, 0⟩

/-- The samples of a match, one channel after the other. -/
def column (s : Memory D) (found : Match) : List F32 :=
  (List.range (w.m g)).map fun r => w.packed g s found (r / w.area) (r % w.area)

def readQuery (s : Memory D) (p : Int × Int × Int) : Except (Thrown D) Query :=
  attempt s (do
    let found ← (w.scan g s p.1 p.2.1 p.2.2).imageMatch w.build
    let sigma ← found.mapM (w.columnSigma g s)
    return ⟨found, found.map (w.column g s), sigma⟩)

def answer (s : Memory D) (q : Query) : Except (Thrown D) (Answer D) := do
  let result ← attempt s (w.filterFull ⟨w.m g, q.found.length, q.group,
    (List.range (w.m g)).map s.rowSigma, q.sigma, w.options.solver⟩)
  return ⟨q.found,
    (List.range q.found.length).map fun j => (List.range (w.m g)).map (result.group j),
    (List.range q.found.length).map result.columnWeight, result.stats⟩

/-- The calls of `add_patch` for a query: match by match, channel by channel. -/
def answerCalls (a : Answer D) : List AddPatch :=
  (List.range a.found.length).flatMap fun j =>
    (List.range g.channels.length).map fun c =>
      let found := a.found.getD j noMatch
      ⟨found.t, channel g c, found.x, found.y,
        (List.range w.area).map fun k => (a.group.getD j []).getD (c * w.area + k) F32.zero,
        a.weight.getD j F32.zero⟩

def put (s : Memory D) (a : Answer D) : Memory D :=
  (w.answerCalls g a).foldl w.addPatch { s with stats := w.addStats s.stats a.stats }

variable {w g} {s : Memory D} {job : Job D} {found : Match} {j n r : Nat}

/-- The channels that have been packed. -/
theorem packColumn_prefix (patches : Nat → Nat → F32) (j n j' r : Nat) :
    (List.range n).foldl
      (fun patches c => fun j' r =>
        if j' = j ∧ c * w.area ≤ r ∧ r < (c + 1) * w.area then
          w.packed g s found c (r - c * w.area)
        else patches j' r)
      patches j' r =
      if j' = j ∧ r < n * w.area then w.packed g s found (r / w.area) (r % w.area)
      else patches j' r := by
  induction n with
  | zero => simp
  | succ n ih =>
    rw [List.range_succ, List.foldl_append, List.foldl_cons, List.foldl_nil, ih]
    have hnext : (n + 1) * w.area = n * w.area + w.area := Nat.succ_mul n w.area
    by_cases hj : j' = j
    · by_cases hin : n * w.area ≤ r ∧ r < (n + 1) * w.area
      · have hdiv : r / w.area = n := by
          apply Nat.div_eq_of_lt_le hin.1
          exact hin.2
        have hmod : r % w.area = r - n * w.area := by
          rw [Nat.mod_def, hdiv, Nat.mul_comm]
        rw [if_pos ⟨hj, hin⟩, if_pos ⟨hj, hin.2⟩, hdiv, hmod]
      · have hiff : j' = j ∧ r < n * w.area ↔ j' = j ∧ r < (n + 1) * w.area := by omega
        rw [if_neg fun h => hin h.2]
        simp only [hiff]
    · rw [if_neg fun h => hj h.1, if_neg fun h => hj h.1, if_neg fun h => hj h.1]

/-- A column is packed whole, and no other one. -/
theorem packColumn_at (patches : Nat → Nat → F32) (j j' r : Nat) :
    w.packColumn g s found j patches j' r =
      if j' = j ∧ r < w.m g then w.packed g s found (r / w.area) (r % w.area)
      else patches j' r := by
  rw [packColumn, packColumn_prefix, m, Nat.mul_comm]

/-- A loop over the places of a list is one over its elements. -/
theorem map_range_getD {α β : Type} (l : List α) (d : Nat → α) (f : α → β) :
    ((List.range l.length).map fun j => f (l.getD j (d j))) = l.map f := by
  apply List.ext_getElem
  · simp
  · intro i hi hi'
    have hlt : i < l.length := by simpa using hi
    simp [List.getElem?_eq_getElem hlt]

/-- The columns that have been filled. -/
theorem fillColumns_cases (job : Job D) (n : Nat) :
    (∃ e, (List.range n).foldlM (w.fillColumn g s) job = .error e ∧
      ((List.range n).mapM fun j => w.columnSigma g s (job.found j)) = .error e) ∨
    ∃ job', (List.range n).foldlM (w.fillColumn g s) job = .ok job' ∧ job'.found = job.found ∧
      job'.count = job.count ∧
      (∀ j < n, (List.range (w.m g)).map (job'.patches j) = w.column g s (job.found j)) ∧
      ((List.range n).mapM fun j => w.columnSigma g s (job.found j)) =
        .ok ((List.range n).map job'.columnSigma) := by
  induction n with
  | zero => exact .inr ⟨job, rfl, rfl, rfl, fun _ h => absurd h (Nat.not_lt_zero _), rfl⟩
  | succ n ih =>
    rw [List.range_succ, List.foldlM_append, List.mapM_append]
    simp only [List.foldlM_cons, List.foldlM_nil, List.mapM_cons, List.mapM_nil, bind_pure]
    rcases ih with ⟨e, hloop, hmap⟩ | ⟨job', hloop, hfound, hcount, hpatches, hmap⟩
    · rw [hloop, hmap]
      exact .inl ⟨e, rfl, rfl⟩
    · rw [hloop, hmap, ok_bind, ok_bind, fillColumn, hfound]
      cases hsigma : w.columnSigma g s (job.found n) with
      | error e => exact .inl ⟨e, rfl, rfl⟩
      | ok sigma =>
        refine .inr ⟨_, rfl, rfl, hcount, fun j hj => ?_, ?_⟩
        · dsimp only
          by_cases hlast : j = n
          · apply List.map_congr_left
            intro r hr
            rw [packColumn_at, if_pos ⟨hlast, List.mem_range.mp hr⟩, hlast]
          · rw [← hpatches j (by omega)]
            apply List.map_congr_left
            intro r _
            rw [packColumn_at, if_neg fun h => hlast h.1]
        · have hbefore : (List.range n).map (Function.update job'.columnSigma n sigma) =
              (List.range n).map job'.columnSigma := by
            apply List.map_congr_left
            intro j hj
            have hlt := List.mem_range.mp hj
            rw [Function.update_of_ne (by omega)]
          dsimp only
          rw [List.map_append, hbefore, List.map_singleton, Function.update_self]
          rfl

/-- What a query is, after its job is filled. -/
def viewQuery (w : Twsc D) (g : PlaneGroup) (job : Job D) : Query where
  found := (List.range job.count).map job.found
  group := (List.range job.count).map fun j => (List.range (w.m g)).map (job.patches j)
  sigma := (List.range job.count).map job.columnSigma

/-- What a query is to add, after its job is processed. -/
def viewAnswer (w : Twsc D) (g : PlaneGroup) (job : Job D) : Answer D where
  found := (List.range job.count).map job.found
  group := (List.range job.count).map fun j => (List.range (w.m g)).map (job.patches j)
  weight := (List.range job.count).map job.columnWeight
  stats := job.stats

theorem fill_view (s : Memory D) (job : Job D) (p : Int × Int × Int) :
    (w.fill g s job p).map (w.viewQuery g) = w.readQuery g s p := by
  unfold fill readQuery attempt
  cases hfound : (w.scan g s p.1 p.2.1 p.2.2).imageMatch w.build with
  | error e => rfl
  | ok found =>
    rw [ok_bind, ok_bind]
    dsimp only
    have hsigma : found.mapM (w.columnSigma g s) = (List.range found.length).mapM fun j =>
        w.columnSigma g s (found.getD j (job.found j)) := by
      have hfound := (map_range_getD found job.found id).trans (List.map_id found)
      rw [← hfound, List.mapM_map, hfound]
      rfl
    rcases fillColumns_cases (w := w) (g := g) (s := s)
      { job with found := fun j => found.getD j (job.found j), count := found.length }
      found.length with ⟨e, hloop, hmap⟩ | ⟨job', hloop, hfound', hcount, hpatches, hmap⟩
    · rw [hloop, hsigma, hmap]
      rfl
    · rw [hloop, hsigma, hmap]
      have hview : w.viewQuery g job' = ⟨found, found.map (w.column g s),
          (List.range found.length).map job'.columnSigma⟩ := by
        unfold viewQuery
        dsimp only at hcount hfound' hpatches
        rw [hcount, hfound']
        congr 1
        · exact (map_range_getD found _ id).trans (List.map_id _)
        · rw [← map_range_getD found job.found]
          apply List.map_congr_left
          intro j hj
          exact hpatches j (List.mem_range.mp hj)
      exact congrArg Except.ok hview

theorem process_result (s : Memory D) (job : Job D) :
    (w.process g s job).map (w.viewAnswer g) = w.answer g s (w.viewQuery g job) := by
  unfold process answer
  have hitem : w.item g s job = ⟨w.m g, (w.viewQuery g job).found.length,
      (w.viewQuery g job).group, (List.range (w.m g)).map s.rowSigma,
      (w.viewQuery g job).sigma, w.options.solver⟩ := by
    unfold item viewQuery
    simp
  have hlen : (w.viewQuery g job).found.length = job.count := by simp [viewQuery]
  rw [hitem, hlen]
  cases hresult : w.filterFull ⟨w.m g, job.count, (w.viewQuery g job).group,
      (List.range (w.m g)).map s.rowSigma, (w.viewQuery g job).sigma, w.options.solver⟩ with
  | error e => rfl
  | ok result =>
    have hview : ∀ j ∈ List.range job.count, (List.range (w.m g)).map (fun r =>
        if j < job.count ∧ r < w.m g then result.group j r else job.patches j r) =
          (List.range (w.m g)).map (result.group j) := by
      intro j hj
      apply List.map_congr_left
      intro r hr
      exact if_pos ⟨List.mem_range.mp hj, List.mem_range.mp hr⟩
    have hweight : (List.range job.count).map (fun j =>
        if j < job.count then result.columnWeight j else job.columnWeight j) =
          (List.range job.count).map result.columnWeight :=
      List.map_congr_left fun j hj => if_pos (List.mem_range.mp hj)
    have hanswer : w.viewAnswer g { job with
        patches := fun j r =>
          if j < job.count ∧ r < w.m g then result.group j r else job.patches j r
        columnWeight := fun j =>
          if j < job.count then result.columnWeight j else job.columnWeight j
        stats := result.stats } = ⟨(w.viewQuery g job).found,
          (List.range job.count).map fun j => (List.range (w.m g)).map (result.group j),
          (List.range job.count).map result.columnWeight, result.stats⟩ := by
      unfold viewAnswer
      dsimp only
      rw [List.map_congr_left hview, hweight]
      rfl
    exact congrArg Except.ok hanswer

theorem commit_put (s : Memory D) (job : Job D) :
    w.commit g s job = w.put g s (w.viewAnswer g job) := by
  unfold put answerCalls
  have hlen : (w.viewAnswer g job).found.length = job.count := by simp [viewAnswer]
  rw [hlen, List.foldl_flatMap]
  simp only [List.foldl_map]
  apply List.foldl_ext
  intro s j hj
  apply List.foldl_ext
  intro s c hc
  have hj := List.mem_range.mp hj
  have hc := List.mem_range.mp hc
  have hfound : (w.viewAnswer g job).found.getD j noMatch = job.found j := by
    simp [viewAnswer, List.getElem?_range hj]
  have hweight : (w.viewAnswer g job).weight.getD j F32.zero = job.columnWeight j := by
    simp [viewAnswer, List.getElem?_range hj]
  have hpatch : (List.range w.area).map (fun k =>
      ((w.viewAnswer g job).group.getD j []).getD (c * w.area + k) F32.zero) =
        (List.range w.area).map fun k => job.patches j (c * w.area + k) := by
    apply List.map_congr_left
    intro k hk
    have hk := List.mem_range.mp hk
    have hin : c * w.area + k < w.m g := by
      calc c * w.area + k < (c + 1) * w.area := by rw [Nat.succ_mul]; omega
        _ ≤ g.channels.length * w.area := Nat.mul_le_mul_right _ hc
        _ = w.m g := Nat.mul_comm _ _
    simp [viewAnswer, List.getElem?_range hj, List.getElem?_range hin]
  rw [hfound, hweight, hpatch]

/-- Calls of `add_patch` leave what the queries read. -/
theorem put_sources (s : Memory D) (a : Answer D) : (w.put g s a).input = s.input ∧
    (w.put g s a).reference = s.reference ∧ (w.put g s a).estimate = s.estimate ∧
    (w.put g s a).rowSigma = s.rowSigma := by
  unfold put
  exact List.foldlRecOn (motive := fun s' : Memory D => s'.input = s.input ∧
    s'.reference = s.reference ∧ s'.estimate = s.estimate ∧ s'.rowSigma = s.rowSigma) _ _
    ⟨rfl, rfl, rfl, rfl⟩ fun s' hs' _ _ => hs'

theorem attempt_toOption {α : Type} (s : Memory D) (x : Except String α) :
    (attempt s x).toOption = x.toOption := by
  cases x <;> rfl

theorem scan_congr {s' : Memory D} (hinput : s'.input = s.input)
    (hreference : s'.reference = s.reference) (hestimate : s'.estimate = s.estimate)
    (t0 x y : Int) : w.scan g s' t0 x y = w.scan g s t0 x y := by
  cases s
  cases s'
  simp only at hinput hreference hestimate
  subst hinput hreference hestimate
  rfl

theorem readQuery_put (s : Memory D) (a : Answer D) (p : Int × Int × Int) :
    (w.readQuery g (w.put g s a) p).toOption = (w.readQuery g s p).toOption := by
  obtain ⟨hinput, hreference, hestimate, -⟩ := put_sources (w := w) (g := g) s a
  have hsigma : w.columnSigma g (w.put g s a) = w.columnSigma g s := by
    funext found
    unfold columnSigma rms2 residual packed
    rw [hinput, hestimate]
  have hcolumn : w.column g (w.put g s a) = w.column g s := by
    funext found
    unfold column packed
    rw [hestimate]
  unfold readQuery
  rw [attempt_toOption, attempt_toOption, scan_congr hinput hreference hestimate, hsigma, hcolumn]

theorem answer_put (s : Memory D) (a : Answer D) (q : Query) :
    (w.answer g (w.put g s a) q).toOption = (w.answer g s q).toOption := by
  obtain ⟨-, -, -, hsigma⟩ := put_sources (w := w) (g := g) s a
  unfold answer
  rw [hsigma]
  apply toOption_bind
  · rw [attempt_toOption, attempt_toOption]
  · exact fun _ => rfl

/-- What a job is before and after the batch. -/
def meaning (w : Twsc D) (g : PlaneGroup) : (w.jobs g).Meaning Query (Answer D) where
  view := w.viewQuery g
  result := w.viewAnswer g
  read := w.readQuery g
  apply := w.answer g
  put := w.put g
  fill_view := fill_view
  process_result := process_result
  commit_put := commit_put
  read_put := readQuery_put
  apply_put := answer_put

/-! ## The number of jobs -/

theorem bufferedGroup_eq (capacity : Nat → Nat → JobCapacity) (s : Memory D) :
    (w.bufferedGroup g capacity s).toOption = (w.directGroup g s).toOption := by
  have hframes : ∀ (ts : List Int) (s : Memory D) (jobs : Nat → Job D),
      ((ts.foldlM (w.frame g (capacity g.iteration g.first).1) (s, jobs)).map Prod.fst).toOption =
      (ts.foldlM (fun s t0 => do
        let s := w.fillRowSigma g s t0
        let places ← w.queries g s t0
        places.foldlM ((w.jobs g).alone w.freshJob) s) s).toOption := by
    intro ts
    induction ts with
    | nil => exact fun _ _ => rfl
    | cons t0 ts ih =>
      intro s jobs
      rw [List.foldlM_cons, List.foldlM_cons, frame]
      dsimp only
      cases hqueries : w.queries g (w.fillRowSigma g s t0) t0 with
      | error e => rfl
      | ok places =>
        rw [ok_bind, ok_bind]
        have hrun := (w.meaning g).run_alone w.freshJob (capacity g.iteration g.first).1
          (w.fillRowSigma g s t0) jobs places
        cases hbuffered : (w.jobs g).run (capacity g.iteration g.first).1
            (w.fillRowSigma g s t0) jobs places with
        | error e =>
          rw [hbuffered] at hrun
          obtain ⟨e', hdirect⟩ := error_of_toOption hrun.symm rfl
          rw [hdirect]
          rfl
        | ok r =>
          rw [hbuffered] at hrun
          rw [ok_of_toOption hrun.symm rfl]
          exact ih r.1 r.2
  have hgroup := hframes (w.targets g s) s fun _ => w.freshJob
  unfold directGroup
  rw [← hgroup]
  unfold bufferedGroup
  cases (w.targets g s).foldlM (w.frame g (capacity g.iteration g.first).1)
    (s, fun _ => w.freshJob) <;> rfl

/-- Plane groups with the same results make iterations with the same results. -/
theorem planeGroups_congr {group group' : PlaneGroup → Memory D → Except (Thrown D) (Memory D)}
    (h : ∀ g s, (group g s).toOption = (group' g s).toOption) (iteration : Nat) (s : Memory D) :
    (w.planeGroups group iteration s).toOption = (w.planeGroups group' iteration s).toOption := by
  refine toOption_bind (toOption_foldlM fun state first _ => ?_) fun _ => rfl
  dsimp only
  split
  · rfl
  · exact toOption_bind (h _ _) fun _ => rfl

theorem iterate_congr {group group' : PlaneGroup → Memory D → Except (Thrown D) (Memory D)}
    (h : ∀ g s, (group g s).toOption = (group' g s).toOption) (left iteration : Nat)
    (s : Memory D) :
    (w.iterate group left iteration s).toOption = (w.iterate group' left iteration s).toOption := by
  induction left generalizing iteration s with
  | zero => rfl
  | succ left ih =>
    have haccumulate : (w.accumulate group iteration s).toOption =
        (w.accumulate group' iteration s).toOption :=
      toOption_bind rfl fun _ => planeGroups_congr h iteration _
    rw [iterate, iterate]
    refine toOption_bind haccumulate fun s => ?_
    split
    · rfl
    · exact toOption_bind rfl fun _ => ih (iteration + 1) _

theorem twscImage_direct (w : Twsc D) (capacity : Nat → Nat → JobCapacity) (input : ImageSequence)
    (reference : Option ImageSequence) :
    (w.twscImage capacity input reference).toOption =
      (w.twscDirect input reference).toOption :=
  toOption_bind rfl fun _ => toOption_bind rfl fun _ =>
    iterate_congr (fun _ s => bufferedGroup_eq capacity s) _ _ _

/-! ## The caller's sequences -/

/-- The caller's sequences are those of the call. -/
def Kept (input : ImageSequence) (reference : Option ImageSequence) (s : Memory D) : Prop :=
  s.input = input ∧ s.reference = reference

variable {input : ImageSequence} {reference : Option ImageSequence}

theorem attempt_ends {α : Type} {s : Memory D} (h : Kept input reference s) (x : Except String α) :
    Ends (fun e : Thrown D => Kept input reference e.memory) (fun _ => True) (attempt s x) := by
  cases x with
  | error e => exact h
  | ok a => trivial

theorem commit_kept {s : Memory D} (h : Kept input reference s) (job : Job D) :
    Kept input reference (w.commit g s job) := by
  rw [commit_put]
  obtain ⟨hinput, hreference, -⟩ := put_sources (w := w) (g := g) s (w.viewAnswer g job)
  exact ⟨hinput.trans h.1, hreference.trans h.2⟩

theorem bufferedGroup_ends (capacity : Nat → Nat → JobCapacity) {s : Memory D}
    (h : Kept input reference s) :
    Ends (fun e : Thrown D => Kept input reference e.memory) (Kept input reference)
      (w.bufferedGroup g capacity s) := by
  have hframe : ∀ state : Memory D × (Nat → Job D), Kept input reference state.1 → ∀ t0,
      Ends (fun e : Thrown D => Kept input reference e.memory)
        (fun state => Kept input reference state.1)
        (w.frame g (capacity g.iteration g.first).1 state t0) := by
    intro state hstate t0
    have hrows : Kept input reference (w.fillRowSigma g state.1 t0) := hstate
    have hqueries : Ends (fun e : Thrown D => Kept input reference e.memory) (fun _ => True)
        (w.queries g (w.fillRowSigma g state.1 t0) t0) := by
      refine (attempt_ends hrows _).bind fun places _ => ?_
      trivial
    refine hqueries.bind fun places _ => ?_
    apply JobBuffer.run_ends hrows
    · exact fun s job p hs => attempt_ends hs _
    · intro s job hs
      refine (attempt_ends hs _).bind fun result _ => ?_
      trivial
    · exact fun s job hs => commit_kept hs job
  have hloop : Ends (fun e : Thrown D => Kept input reference e.memory)
      (fun state => Kept input reference state.1)
      ((w.targets g s).foldlM (w.frame g (capacity g.iteration g.first).1)
        (s, fun _ => w.freshJob)) :=
    Ends.foldlM h fun state hstate t0 _ => hframe state hstate t0
  exact hloop.bind fun _ hstate => hstate

theorem planeGroups_ends {group : PlaneGroup → Memory D → Except (Thrown D) (Memory D)}
    (hgroup : ∀ g s, Kept input reference s →
      Ends (fun e : Thrown D => Kept input reference e.memory) (Kept input reference) (group g s))
    (iteration : Nat) {s : Memory D} (h : Kept input reference s) :
    Ends (fun e : Thrown D => Kept input reference e.memory) (Kept input reference)
      (w.planeGroups group iteration s) := by
  have hloop : Ends (fun e : Thrown D => Kept input reference e.memory)
      (fun state => Kept input reference state.1)
      ((List.range w.planes.toNat).foldlM
        (fun (state : Memory D × (Nat → Bool)) first => do
          let sigma := (state.1.input.frames w.center.toNat).sigma first
          if state.2 first ∨ sigma.le F32.zero ∧ F32.zero.le sigma then return state
          else
            let (g, used) := w.planeGroup state.1 iteration state.2 first
            return (← group g state.1, used))
        (s, fun _ => false)) := by
    apply Ends.foldlM (P := fun state : Memory D × (Nat → Bool) => Kept input reference state.1) h
    intro state hstate first _
    dsimp only
    split
    · exact hstate
    · exact (hgroup _ _ hstate).bind fun _ hs => hs
  exact hloop.bind fun _ hstate => hstate

theorem iterate_ends {group : PlaneGroup → Memory D → Except (Thrown D) (Memory D)}
    (hgroup : ∀ g s, Kept input reference s →
      Ends (fun e : Thrown D => Kept input reference e.memory) (Kept input reference) (group g s))
    (left iteration : Nat) {s : Memory D} (h : Kept input reference s) :
    Ends (fun e : Thrown D => Kept input reference e.memory)
      (fun r => Kept input reference r.2) (w.iterate group left iteration s) := by
  induction left generalizing iteration s with
  | zero => exact h
  | succ left ih =>
    have haccumulate : Ends (fun e : Thrown D => Kept input reference e.memory)
        (Kept input reference) (w.accumulate group iteration s) := by
      have hestimate : Ends (fun e : Thrown D => Kept input reference e.memory) (fun _ => True)
          (if iteration > 0 ∧ (w.arith.lt w.options.delta w.arith.zero ||
            w.arith.lt w.arith.zero w.options.delta) then attempt s (w.blend s)
          else .ok s.estimate) := by
        split
        · exact attempt_ends h _
        · trivial
      exact hestimate.bind fun _ _ => planeGroups_ends hgroup iteration h
    rw [iterate]
    refine haccumulate.bind fun s hs => ?_
    split
    · exact (attempt_ends hs _).bind fun _ _ => hs
    · exact (attempt_ends hs _).bind fun _ _ => ih (iteration + 1) hs

theorem twscImage_ends (w : Twsc D) (capacity : Nat → Nat → JobCapacity) (input : ImageSequence)
    (reference : Option ImageSequence) :
    Ends (fun e : Thrown D => Kept input reference e.memory)
      (fun r => Kept input reference r.2) (w.twscImage capacity input reference) := by
  have hstart : Kept input reference (w.start input reference) := ⟨rfl, rfl⟩
  exact (attempt_ends hstart _).bind fun _ _ => (attempt_ends hstart _).bind fun _ _ =>
    iterate_ends (fun _ _ hs => bufferedGroup_ends capacity hs) _ _ hstart

theorem addPatches_calls (calls : List AddPatch) (s : Memory D) :
    (calls.foldl w.addPatch s).calls = s.calls ++ calls ∧
      (calls.foldl w.addPatch s).stats = s.stats := by
  induction calls generalizing s with
  | nil => exact ⟨(List.append_nil _).symm, rfl⟩
  | cons call calls ih =>
    obtain ⟨hcalls, hstats⟩ := ih (w.addPatch s call)
    exact ⟨hcalls.trans (by rw [addPatch, List.append_assoc]; rfl), hstats⟩

/-- The result of the filter, with its calls of `add_patch` in order, does not depend on the
number of jobs: it is that of the filter that takes each query in its own turn, which adds the
patches of its matches, channel by channel, and counts it once. However the filter ends, the
caller's sequences are as they were. -/
theorem twscImage_eq (w : Twsc D) (capacity capacity' : Nat → Nat → JobCapacity)
    (input : ImageSequence) (reference : Option ImageSequence) :
    (w.twscImage capacity input reference).toOption =
        (w.twscImage capacity' input reference).toOption ∧
      (w.twscImage capacity input reference).toOption = (w.twscDirect input reference).toOption ∧
      (∀ g s p, (w.jobs g).alone w.freshJob s p = (do
        let q ← w.readQuery g s p
        let a ← w.answer g s q
        return w.put g s a)) ∧
      (∀ g s a, (w.put g s a).calls = s.calls ++ w.answerCalls g a ∧
        (w.put g s a).stats = w.addStats s.stats a.stats) ∧
      Ends (fun e : Thrown D => Kept input reference e.memory)
        (fun r => Kept input reference r.2) (w.twscImage capacity input reference) := by
  have hdirect := twscImage_direct w
  refine ⟨(hdirect capacity input reference).trans (hdirect capacity' input reference).symm,
    hdirect capacity input reference, fun g s p => ?_, fun g s a => addPatches_calls _ _,
    twscImage_ends w capacity input reference⟩
  rw [← (w.meaning g).step_eq w.freshJob]
  rfl

end Twsc

end NssFactory.Cpu
