import NssFactory.Lib.CInt
import NssFactory.Lib.Strides
import Mathlib.Tactic.Ring

/-!
The reference blocks of a plane (`src/host/batch_runner.hpp`, `src/gpuhost/geometry.hpp`
and `.cpp`). Three pieces of code enumerate them: the loop `append_raster_jobs`, the lazily
indexed `RasterJobs` and, for the GPU kernels, `RasterGrid`. The positions of an axis are
the places of `Lib/Strides`, a grid is their raster; each of the three is shown to list
exactly that.
-/

namespace NssFactory.Raster

open CInt Strides

universe u

/-- `GroupJob`. -/
structure GroupJob (Key : Type) where
  ordinal : Nat
  x : Int
  y : Int
  t : Int
  key : Key
  deriving DecidableEq, Repr

/-! ## The loop -/

/-- `append_raster_jobs`; its counters are 64 bits wide. -/
def appendRasterJobs {Key : Type} (jobs : List (GroupJob Key)) (width height block step : Int)
    (key : Key) (t : Int) : List (GroupJob Key) :=
  if width < block ∨ height < block ∨ step < 1 then jobs
  else
    let rows := starts step (height - block + step) (height - block + step).toNat 0
    let columns := starts step (width - block + step) (width - block + step).toNat 0
    let push := fun (s : List (GroupJob Key) × Nat) (y x : Int) =>
      (s.1 ++ [GroupJob.mk s.2 x y t key], s.2 + 1)
    (rows.foldl (fun s y0 => columns.foldl (fun s x0 =>
      push s (min y0 (height - block)) (min x0 (width - block))) s) (jobs, jobs.length)).1

/-! ## The lazy index -/

/-- What an unsigned 64-bit value keeps of a number. -/
def u64 (n : Int) : Nat := (n % 18446744073709551616).toNat

/-- `checked_int`. -/
def checkedInt (value : Nat) : Except String Int :=
  if value > 2147483647 then .error "nss: size exceeds the kernel integer range" else .ok value

/-- `RasterJobs`. -/
structure RasterJobs (Key : Type) where
  w : Int
  h : Int
  b : Int
  step : Int
  key : Key
  t : Int
  nx : Int
  ny : Int

/-- The positions of an axis as the constructor counts them. -/
def RasterJobs.axisCount (len b step : Int) : Except String Int :=
  checkedInt (u64 (u64 (u64 (len - b) + step - 1) / u64 step + 1))

/-- The constructor. -/
def RasterJobs.new {Key : Type} (w h b step : Int) (key : Key) (t : Int) : Except String (RasterJobs Key) := do
  let nx ← RasterJobs.axisCount w b step
  let ny ← RasterJobs.axisCount h b step
  .ok ⟨w, h, b, step, key, t, nx, ny⟩

namespace RasterJobs

variable {Key : Type} (r : RasterJobs Key)

def size : Nat := u64 (u64 r.nx * r.ny)

/-- `operator[]`. -/
def get (i : Nat) : GroupJob Key :=
  ⟨i, min (u64 (i % u64 r.nx * u64 r.step)) (u64 (r.w - r.b)),
    min (u64 (i / u64 r.nx * u64 r.step)) (u64 (r.h - r.b)), r.t, r.key⟩

/-- The jobs in the order of their index. -/
def toList : List (GroupJob Key) := (List.range r.size).map r.get

end RasterJobs

/-! ## The grid of the kernels -/

/-- `RasterGrid`. -/
structure RasterGrid where
  nx : Int
  ny : Int
  step : Int
  maxX : Int
  maxY : Int
  deriving DecidableEq, Repr

namespace RasterGrid

variable (g : RasterGrid)

def count : Option Int := mul g.nx g.ny

def x (i : Int) : Option Int := do
  let column ← mod i g.nx
  let v ← mul column g.step
  some (if v < g.maxX then v else g.maxX)

def y (i : Int) : Option Int := do
  let row ← div i g.nx
  let v ← mul row g.step
  some (if v < g.maxY then v else g.maxY)

end RasterGrid

/-- `(len - block + step - 1) / step + 1`. -/
def gridAxis (len block step : Int) : Option Int := do
  let span ← sub len block
  let up ← add span step
  let up ← sub up 1
  let rounds ← div up step
  add rounds 1

/-- `make_raster_grid`. -/
def makeRasterGrid (width height block step : Int) : Option RasterGrid := do
  let maxX ← sub width block
  let maxY ← sub height block
  if width < block ∨ height < block ∨ step < 1 then some ⟨0, 0, step, maxX, maxY⟩
  else do
    let nx ← gridAxis width block step
    let ny ← gridAxis height block step
    some ⟨nx, ny, step, maxX, maxY⟩

/-! ## Chunks -/

/-- A sequence of jobs as `commit_prepared_chunk` reads it. -/
structure Jobs (Job : Type) where
  size : Nat
  get : Nat → Job

def Jobs.ofRaster {Key : Type} (r : RasterJobs Key) : Jobs (GroupJob Key) := ⟨r.size, r.get⟩

/-- `commit_prepared_chunk`; `fresh` is the value-initialised result. -/
def commitPreparedChunk {Job Result : Type} {m : Type → Type u} [Monad m] (jobs : Jobs Job)
    (start stop : Nat) (fresh : Result) (prepare : Job → Result → m Result) (commit : Result → m Unit) :
    m Bool :=
  if start ≥ stop ∨ stop > jobs.size then pure true
  else do
    forM (List.range' start (stop - start)) fun index => do
      let result ← prepare (jobs.get index) fresh
      commit result
    pure true

/-- The ends of chunks of the given sizes, the first at `start`. -/
def chunksFrom (start : Nat) : List Nat → List (Nat × Nat)
  | [] => []
  | n :: ns => (start, start + n) :: chunksFrom (start + n) ns

section Chunk

variable {Job Result : Type} {m : Type → Type u} [Monad m] [LawfulMonad m] {jobs : Jobs Job}
  {fresh : Result} {prepare : Job → Result → m Result} {commit : Result → m Unit}

/-- A chunk that lies inside does its own jobs, an empty one nothing. -/
theorem commitPreparedChunk_eq {start n : Nat} (h : start + n ≤ jobs.size) :
    commitPreparedChunk jobs start (start + n) fresh prepare commit =
      (do forM (List.range' start n) fun index => prepare (jobs.get index) fresh >>= commit
          pure true) := by
  cases n with
  | zero => simp [commitPreparedChunk]
  | succ n =>
    rw [commitPreparedChunk, if_neg (by omega), Nat.add_sub_cancel_left]

/-- Chunks of any sizes, one after the other, do every job once and in order. -/
theorem forM_chunks {sizes : List Nat} (start : Nat) (h : start + sizes.sum ≤ jobs.size) :
    (forM (chunksFrom start sizes) fun c => do
        let _ ← commitPreparedChunk jobs c.1 c.2 fresh prepare commit
        pure PUnit.unit) =
      forM (List.range' start sizes.sum) fun index => prepare (jobs.get index) fresh >>= commit := by
  induction sizes generalizing start with
  | nil => rfl
  | cons n ns ih =>
    rw [List.sum_cons] at h
    have hrest := ih (start + n) (by omega)
    have hsplit : List.range' start (n + ns.sum) =
        List.range' start n ++ List.range' (start + n) ns.sum := by
      rw [List.range'_append_1]
    rw [List.sum_cons, hsplit, List.forM_append, ← hrest, chunksFrom, List.forM_cons,
      commitPreparedChunk_eq (by omega)]
    simp

end Chunk

/-! ## The three agree -/

/-- A plane and the blocks that are to cover it. -/
structure RasterShape where
  width : Int
  height : Int
  block : Int
  step : Int
  step_pos : 1 ≤ step
  step_le : step ≤ block
  block_le_width : block ≤ width
  block_le_height : block ≤ height
  width_le : width ≤ intMax
  height_le : height ≤ intMax

/-- A loop that appends an element and its number. -/
theorem foldl_number {α β : Type} (f : Nat → α → β) (l : List α) (out : List β) (first : Nat) :
    l.foldl (fun s a => (s.1 ++ [f s.2 a], s.2 + 1)) (out, first) =
      (out ++ (l.zipIdx first).map fun p => f p.2 p.1, first + l.length) := by
  induction l generalizing out first with
  | nil => simp
  | cons a l ih =>
    rw [List.foldl_cons, ih, List.zipIdx_cons, List.map_cons, List.length_cons]
    simp only [List.append_assoc, List.cons_append, List.nil_append, Prod.mk.injEq, true_and]
    omega

namespace RasterShape

variable (s : RasterShape)

/-- The rows or columns of blocks of an axis of length `len`. -/
def axis (len : Int) : Nat := Strides.count (len - s.block).toNat s.step.toNat

/-- Where block `i` of an axis starts. -/
def start (len : Int) (i : Nat) : Int := (place (len - s.block).toNat s.step.toNat i : Nat)

def position (p : Nat × Nat) : Int × Int := (s.start s.width p.1, s.start s.height p.2)

/-- The positions in raster order. -/
def positions : List (Int × Int) :=
  (raster (s.axis s.width) (s.axis s.height)).map s.position

/-- The jobs of the positions, counted from `first`. -/
def jobs {Key : Type} (first : Nat) (key : Key) (t : Int) : List (GroupJob Key) :=
  (s.positions.zipIdx first).map fun p => ⟨p.2, p.1.1, p.1.2, t, key⟩

theorem step_toNat_pos : 1 ≤ s.step.toNat := by
  have := s.step_pos
  omega

theorem axis_le {len : Int} (hlen : s.block ≤ len) : (s.axis len : Int) ≤ len := by
  have h : s.axis len ≤ (len - s.block).toNat + 1 := count_le s.step_toNat_pos
  have := s.step_pos
  have := s.step_le
  omega

theorem start_eq {len : Int} (hlen : s.block ≤ len) (i : Nat) :
    s.start len i = min (i * s.step) (len - s.block) := by
  have := s.step_pos
  have hmul : ((i * s.step.toNat : Nat) : Int) = i * s.step := by
    push_cast
    rw [Int.toNat_of_nonneg (by omega)]
  rw [start, place]
  omega

/-- The counter of a loop of `append_raster_jobs`. -/
theorem starts_axis {len : Int} (hlen : s.block ≤ len) :
    starts s.step (len - s.block + s.step) (len - s.block + s.step).toNat 0 =
      (List.range (s.axis len)).map fun (i : Nat) => (i : Int) * s.step := by
  have hstep := s.step_pos
  have hcount : s.axis len ≤ (len - s.block).toNat + 1 := count_le s.step_toNat_pos
  have hfuel : s.axis len ≤ (len - s.block + s.step).toNat := by omega
  have h := starts_eq s.step_toNat_pos hfuel
  rw [Int.toNat_of_nonneg (by omega), Int.toNat_of_nonneg (by omega)] at h
  rw [h, axis]
  refine List.map_congr_left fun i _ => ?_
  push_cast
  rw [Int.toNat_of_nonneg (by omega)]

variable {Key : Type} {key : Key} {t : Int}

/-- The loop appends the jobs of the positions. -/
theorem appendRasterJobs_eq (earlier : List (GroupJob Key)) :
    appendRasterJobs earlier s.width s.height s.block s.step key t =
      earlier ++ s.jobs earlier.length key t := by
  have hw := s.block_le_width
  have hh := s.block_le_height
  have hs := s.step_pos
  rw [appendRasterJobs, if_neg (by omega), s.starts_axis hw, s.starts_axis hh]
  have hplaces : s.positions = ((List.range (s.axis s.height)).map fun (j : Nat) => (j : Int) * s.step).flatMap
      fun y0 => ((List.range (s.axis s.width)).map fun (i : Nat) => (i : Int) * s.step).map
        fun x0 => (min x0 (s.width - s.block), min y0 (s.height - s.block)) := by
    rw [positions, raster, List.map_flatMap, List.flatMap_map]
    refine List.flatMap_congr fun j _ => ?_
    rw [List.map_map, List.map_map]
    refine List.map_congr_left fun i _ => ?_
    simp only [Function.comp_apply, position, s.start_eq hw, s.start_eq hh]
  have hloop := foldl_number (fun n (p : Int × Int) => GroupJob.mk n p.1 p.2 t key) s.positions
    earlier earlier.length
  rw [hplaces, List.foldl_flatMap] at hloop
  simp only [List.foldl_map] at hloop ⊢
  rw [hloop, ← hplaces, jobs]

theorem length_positions : s.positions.length = s.axis s.width * s.axis s.height := by
  rw [positions, List.length_map, length_raster]

theorem length_jobs (first : Nat) : (s.jobs first key t).length = s.positions.length := by
  simp [jobs]

theorem getElem?_positions {i : Nat} (h : i < s.positions.length) :
    s.positions[i]? = some (s.position (i % s.axis s.width, i / s.axis s.width)) := by
  rw [length_positions] at h
  rw [positions, List.getElem?_map, getElem?_raster h]
  rfl

theorem getElem?_jobs {i first : Nat} (h : i < s.positions.length) :
    (s.jobs first key t)[i]? =
      some ⟨first + i, s.start s.width (i % s.axis s.width), s.start s.height (i / s.axis s.width), t, key⟩ := by
  rw [jobs, List.getElem?_map, List.getElem?_zipIdx, s.getElem?_positions h]
  simp [position]

/-- The columns of index `i` and its row are among those of the axes. -/
theorem index_lt {i : Nat} (h : i < s.positions.length) :
    i % s.axis s.width < s.axis s.width ∧ i / s.axis s.width < s.axis s.height := by
  rw [length_positions] at h
  have hpos : 0 < s.axis s.width := count_pos
  exact ⟨Nat.mod_lt _ hpos, Nat.div_lt_of_lt_mul h⟩

/-! ### The lazy index -/

theorem u64_of_nonneg {n : Int} (h : 0 ≤ n) (h' : n < 18446744073709551616) : u64 n = n.toNat := by
  rw [u64, Int.emod_eq_of_lt h h']

/-- A count of blocks is the same in unsigned 64 bits. -/
theorem axisCount_eq {len : Int} (hlen : s.block ≤ len) (hint : len ≤ intMax) :
    RasterJobs.axisCount len s.block s.step = .ok (s.axis len : Int) := by
  have hs := s.step_pos
  have hb := s.step_le
  have hint : len ≤ 2147483647 := hint
  have hspan : u64 (len - s.block) = (len - s.block).toNat := u64_of_nonneg (by omega) (by omega)
  have hstep : u64 s.step = s.step.toNat := u64_of_nonneg (by omega) (by omega)
  have hup : u64 ((len - s.block).toNat + s.step - 1) = (len - s.block).toNat + s.step.toNat - 1 := by
    rw [u64_of_nonneg (by omega) (by omega)]
    omega
  have hle := s.axis_le hlen
  have haxis : (((len - s.block).toNat + s.step.toNat - 1 : Nat) : Int) / (s.step.toNat : Nat) + 1 =
      (s.axis len : Int) := by
    rw [axis, Strides.count]
    push_cast
    rfl
  rw [RasterJobs.axisCount, hspan, hup, hstep, haxis, u64_of_nonneg (by omega) (by omega), checkedInt,
    if_neg (by omega)]
  rfl

/-- The iterator of the plane. -/
def rasterJobs (key : Key) (t : Int) : RasterJobs Key :=
  ⟨s.width, s.height, s.block, s.step, key, t, s.axis s.width, s.axis s.height⟩

theorem rasterJobs_new :
    RasterJobs.new s.width s.height s.block s.step key t = .ok (s.rasterJobs key t) := by
  rw [RasterJobs.new, s.axisCount_eq s.block_le_width s.width_le,
    s.axisCount_eq s.block_le_height s.height_le]
  rfl

/-- Before it is clamped, a start is less than a step past the last one. -/
theorem mul_step_lt {len : Int} (hlen : s.block ≤ len) {i : Nat} (hi : i < s.axis len) :
    (i : Int) * s.step < len - s.block + s.step := by
  have hs := s.step_pos
  have h := (lt_count_iff s.step_toNat_pos).mp hi
  have hmul : ((i * s.step.toNat : Nat) : Int) = i * s.step := by
    push_cast
    rw [Int.toNat_of_nonneg (by omega)]
  omega

/-- A coordinate of a job, in unsigned 64 bits. -/
theorem u64_start {len : Int} (hlen : s.block ≤ len) (hint : len ≤ intMax) {i : Nat}
    (hi : i < s.axis len) :
    (min (u64 (i * u64 s.step)) (u64 (len - s.block)) : Int) = s.start len i := by
  have hs := s.step_pos
  have hb := s.step_le
  have hint : len ≤ 2147483647 := hint
  have hlt := s.mul_step_lt hlen hi
  have hnonneg : 0 ≤ (i : Int) * s.step := Int.mul_nonneg (by omega) (by omega)
  have hstep : ((u64 s.step : Nat) : Int) = s.step := by
    rw [u64_of_nonneg (by omega) (by omega), Int.toNat_of_nonneg (by omega)]
  have hspan : u64 (len - s.block) = (len - s.block).toNat := u64_of_nonneg (by omega) (by omega)
  rw [hstep, hspan, u64_of_nonneg hnonneg (by omega), s.start_eq hlen]
  omega

/-- Both axes together have at most as many positions as the plane has pixels. -/
theorem length_positions_le : (s.positions.length : Int) ≤ s.width * s.height := by
  have hw := s.axis_le s.block_le_width
  have hh := s.axis_le s.block_le_height
  rw [length_positions]
  push_cast
  exact Int.mul_le_mul hw hh (by omega) (by omega)

theorem u64_axis {len : Int} (hlen : s.block ≤ len) (hint : len ≤ intMax) :
    u64 (s.axis len) = s.axis len := by
  have hle := s.axis_le hlen
  have hint : len ≤ 2147483647 := hint
  rw [u64_of_nonneg (by omega) (by omega), Int.toNat_natCast]

theorem size_rasterJobs : (s.rasterJobs key t).size = s.positions.length := by
  have hw := s.axis_le s.block_le_width
  have hh := s.axis_le s.block_le_height
  have hw' : s.width ≤ 2147483647 := s.width_le
  have hh' : s.height ≤ 2147483647 := s.height_le
  have hle : (s.axis s.width : Int) * s.axis s.height ≤ 2147483647 * 2147483647 :=
    Int.mul_le_mul (by omega) (by omega) (by omega) (by omega)
  have hnonneg : (0 : Int) ≤ (s.axis s.width : Int) * s.axis s.height := Int.mul_nonneg (by omega) (by omega)
  rw [RasterJobs.size, rasterJobs, s.u64_axis s.block_le_width s.width_le, length_positions,
    u64_of_nonneg hnonneg (by omega)]
  rw [← Int.natCast_mul, Int.toNat_natCast]

/-- Index `i` of the iterator is position `i`. -/
theorem get_rasterJobs {i : Nat} (h : i < s.positions.length) :
    (s.jobs 0 key t)[i]? = some ((s.rasterJobs key t).get i) := by
  obtain ⟨hx, hy⟩ := s.index_lt h
  rw [s.getElem?_jobs h, RasterJobs.get]
  simp only [rasterJobs, s.u64_axis s.block_le_width s.width_le, ← Int.natCast_emod, ← Int.natCast_ediv,
    s.u64_start s.block_le_width s.width_le hx, s.u64_start s.block_le_height s.height_le hy,
    Nat.zero_add]

theorem toList_rasterJobs : (s.rasterJobs key t).toList = s.jobs 0 key t := by
  refine List.ext_getElem? fun i => ?_
  rw [RasterJobs.toList, size_rasterJobs, List.getElem?_map]
  by_cases h : i < s.positions.length
  · rw [List.getElem?_range h, s.get_rasterJobs h]
    rfl
  · rw [List.getElem?_eq_none (by simpa using h), List.getElem?_eq_none (by rw [length_jobs]; omega)]
    rfl

/-! ### The grid -/

/-- The grid of the plane. -/
def rasterGrid : RasterGrid :=
  ⟨s.axis s.width, s.axis s.height, s.step, s.width - s.block, s.height - s.block⟩

theorem gridAxis_eq {len : Int} (hlen : s.block ≤ len) (hint : len ≤ intMax) :
    gridAxis len s.block s.step = some (s.axis len : Int) := by
  have hs := s.step_pos
  have hb := s.step_le
  have hmax : intMax = 2147483647 := rfl
  have hle := s.axis_le hlen
  have haxis : (len - s.block + s.step - 1) / s.step + 1 = (s.axis len : Int) := by
    have hup : len - s.block + s.step - 1 = (((len - s.block).toNat + s.step.toNat - 1 : Nat) : Int) := by
      omega
    have hstep : s.step = (s.step.toNat : Int) := by omega
    rw [axis, Strides.count, hup]
    push_cast
    rw [← hstep]
  have hspan : sub len s.block = some (len - s.block) := sub_of_fits ⟨by omega, by omega⟩
  have hup : add (len - s.block) s.step = some (len - s.block + s.step) :=
    add_of_fits ⟨by omega, by omega⟩
  have hdown : sub (len - s.block + s.step) 1 = some (len - s.block + s.step - 1) :=
    sub_of_fits ⟨by omega, by omega⟩
  have hdiv : div (len - s.block + s.step - 1) s.step = some ((len - s.block + s.step - 1) / s.step) :=
    div_of_nonneg (by omega) (by omega) hs
  have hadd : add ((len - s.block + s.step - 1) / s.step) 1 = some (s.axis len : Int) := by
    rw [add, haxis]
    exact ofInt_of_fits ⟨by omega, by omega⟩
  simp only [gridAxis, hspan, hup, hdown, hdiv, hadd, Option.bind_eq_bind, Option.bind_some]

theorem makeRasterGrid_eq :
    makeRasterGrid s.width s.height s.block s.step = some s.rasterGrid := by
  have hs := s.step_pos
  have hb := s.step_le
  have hw := s.block_le_width
  have hh := s.block_le_height
  have hw' : s.width ≤ 2147483647 := s.width_le
  have hh' : s.height ≤ 2147483647 := s.height_le
  have hmax : intMax = 2147483647 := rfl
  have hx : sub s.width s.block = some (s.width - s.block) := sub_of_fits ⟨by omega, by omega⟩
  have hy : sub s.height s.block = some (s.height - s.block) := sub_of_fits ⟨by omega, by omega⟩
  have hfits : ¬(s.width < s.block ∨ s.height < s.block ∨ s.step < 1) := by omega
  simp only [makeRasterGrid, hx, hy, s.gridAxis_eq hw s.width_le, s.gridAxis_eq hh s.height_le,
    Option.bind_eq_bind, Option.bind_some, if_neg hfits, rasterGrid]

/-- The product of the axes is the number of positions, where an `int` holds it. -/
theorem count_rasterGrid :
    s.rasterGrid.count = ofInt s.positions.length := by
  rw [RasterGrid.count, mul, rasterGrid, length_positions]
  push_cast
  rfl

theorem start_clamped {len : Int} (hlen : s.block ≤ len) (i : Nat) :
    (if (i : Int) * s.step < len - s.block then (i : Int) * s.step else len - s.block) = s.start len i := by
  rw [s.start_eq hlen]
  split <;> omega

/-- Index `i` of the grid is position `i`. -/
theorem position_rasterGrid {i : Nat} (h : i < s.positions.length) (hint : (i : Int) ≤ intMax) :
    s.rasterGrid.x i = some (s.start s.width (i % s.axis s.width)) ∧
      s.rasterGrid.y i = some (s.start s.height (i / s.axis s.width)) := by
  obtain ⟨hx, hy⟩ := s.index_lt h
  have hs := s.step_pos
  have hb := s.step_le
  have hmax : intMax = 2147483647 := rfl
  have hw' : s.width ≤ 2147483647 := s.width_le
  have hh' : s.height ≤ 2147483647 := s.height_le
  have hpos : (1 : Int) ≤ s.axis s.width := by
    have : 0 < s.axis s.width := count_pos
    omega
  have hxlt := s.mul_step_lt s.block_le_width hx
  have hylt := s.mul_step_lt s.block_le_height hy
  have hxnn : 0 ≤ ((i % s.axis s.width : Nat) : Int) * s.step := Int.mul_nonneg (Int.natCast_nonneg _) (by omega)
  have hynn : 0 ≤ ((i / s.axis s.width : Nat) : Int) * s.step := Int.mul_nonneg (Int.natCast_nonneg _) (by omega)
  have hcolumn : mod i (s.axis s.width) = some ((i % s.axis s.width : Nat) : Int) :=
    mod_of_nonneg (by omega) hint hpos
  have hrow : div i (s.axis s.width) = some ((i / s.axis s.width : Nat) : Int) :=
    div_of_nonneg (by omega) hint hpos
  have hxmul := mul_of_fits (a := ((i % s.axis s.width : Nat) : Int)) (b := s.step) (by
    constructor <;> omega)
  have hymul := mul_of_fits (a := ((i / s.axis s.width : Nat) : Int)) (b := s.step) (by
    constructor <;> omega)
  constructor
  · simp only [RasterGrid.x, rasterGrid, hcolumn, hxmul, Option.bind_eq_bind, Option.bind_some]
    exact congrArg some (s.start_clamped s.block_le_width _)
  · simp only [RasterGrid.y, rasterGrid, hrow, hymul, Option.bind_eq_bind, Option.bind_some]
    exact congrArg some (s.start_clamped s.block_le_height _)

/-! ### The blocks cover the plane -/

/-- What an enumeration of the blocks of a plane is to be. -/
structure Covers (l : List (Int × Int)) : Prop where
  inside : ∀ p ∈ l, (0 ≤ p.1 ∧ p.1 + s.block ≤ s.width) ∧ 0 ≤ p.2 ∧ p.2 + s.block ≤ s.height
  increasing : l.Pairwise fun p q => p.2 < q.2 ∨ p.2 = q.2 ∧ p.1 < q.1
  nodup : l.Nodup
  last_row : ∀ p ∈ l, l.count (p.1, s.height - s.block) = 1
  last_column : ∀ p ∈ l, l.count (s.width - s.block, p.2) = 1
  covered : ∀ px py : Int, (0 ≤ px ∧ px < s.width) → (0 ≤ py ∧ py < s.height) →
    ∃ p ∈ l, (p.1 ≤ px ∧ px < p.1 + s.block) ∧ p.2 ≤ py ∧ py < p.2 + s.block

theorem mem_positions {p : Int × Int} :
    p ∈ s.positions ↔ ∃ i j, i < s.axis s.width ∧ j < s.axis s.height ∧
      p = (s.start s.width i, s.start s.height j) := by
  simp only [positions, List.mem_map, mem_raster, Prod.exists, position]
  constructor
  · rintro ⟨i, j, ⟨hi, hj⟩, rfl⟩
    exact ⟨i, j, hi, hj, rfl⟩
  · rintro ⟨i, j, hi, hj, rfl⟩
    exact ⟨i, j, ⟨hi, hj⟩, rfl⟩

theorem start_inside {len : Int} (hlen : s.block ≤ len) (i : Nat) :
    0 ≤ s.start len i ∧ s.start len i + s.block ≤ len := by
  have hs := s.step_pos
  have hnonneg : 0 ≤ (i : Int) * s.step := Int.mul_nonneg (by omega) (by omega)
  rw [s.start_eq hlen]
  omega

theorem start_lt {len : Int} {i j : Nat} (hij : i < j) (hj : j < s.axis len) :
    s.start len i < s.start len j :=
  Int.ofNat_lt.mpr (place_lt s.step_toNat_pos hij hj)

/-- The last start is the clamp. -/
theorem start_last {len : Int} (hlen : s.block ≤ len) :
    s.start len (s.axis len - 1) = len - s.block := by
  rw [start, axis, place_last s.step_toNat_pos]
  omega

theorem exists_block {len p : Int} (hlen : s.block ≤ len) (hp : 0 ≤ p ∧ p < len) :
    ∃ i < s.axis len, s.start len i ≤ p ∧ p < s.start len i + s.block := by
  have hs := s.step_pos
  have hb := s.step_le
  obtain ⟨i, hi, hle, hlt⟩ : ∃ i < s.axis len,
      place (len - s.block).toNat s.step.toNat i ≤ p.toNat ∧
        p.toNat < place (len - s.block).toNat s.step.toNat i + s.block.toNat :=
    place_covers s.step_toNat_pos (by omega) (by omega)
  exact ⟨i, hi, by rw [start]; omega, by rw [start]; omega⟩

theorem positions_increasing :
    s.positions.Pairwise fun p q => p.2 < q.2 ∨ p.2 = q.2 ∧ p.1 < q.1 := by
  rw [positions, List.pairwise_map]
  refine (raster_increasing _ _).imp_of_mem fun {p q} hp hq h => ?_
  have hq := mem_raster.mp hq
  rcases h with hrow | ⟨hrow, hcolumn⟩
  · exact .inl (s.start_lt hrow hq.2)
  · exact .inr ⟨congrArg (s.start s.height) hrow, s.start_lt hcolumn hq.1⟩

theorem positions_nodup : s.positions.Nodup := by
  refine s.positions_increasing.imp fun {p q} h heq => ?_
  subst heq
  omega

theorem covers_positions : s.Covers s.positions where
  inside p hp := by
    obtain ⟨i, j, -, -, rfl⟩ := s.mem_positions.mp hp
    exact ⟨s.start_inside s.block_le_width i, s.start_inside s.block_le_height j⟩
  increasing := s.positions_increasing
  nodup := s.positions_nodup
  last_row p hp := by
    obtain ⟨i, j, hi, hj, rfl⟩ := s.mem_positions.mp hp
    refine List.count_eq_one_of_mem s.positions_nodup (s.mem_positions.mpr ?_)
    exact ⟨i, s.axis s.height - 1, hi, by omega, by rw [s.start_last s.block_le_height]⟩
  last_column p hp := by
    obtain ⟨i, j, hi, hj, rfl⟩ := s.mem_positions.mp hp
    refine List.count_eq_one_of_mem s.positions_nodup (s.mem_positions.mpr ?_)
    exact ⟨s.axis s.width - 1, j, by omega, hj, by rw [s.start_last s.block_le_width]⟩
  covered px py hx hy := by
    obtain ⟨i, hi, hxle, hxlt⟩ := s.exists_block s.block_le_width hx
    obtain ⟨j, hj, hyle, hylt⟩ := s.exists_block s.block_le_height hy
    exact ⟨(s.start s.width i, s.start s.height j), s.mem_positions.mpr ⟨i, j, hi, hj, rfl⟩,
      ⟨hxle, hxlt⟩, hyle, hylt⟩

theorem map_jobs (first : Nat) :
    ((s.jobs first key t).map fun job => (job.x, job.y)) = s.positions := by
  rw [jobs, List.map_map]
  exact List.zipIdx_map_fst first s.positions

/-- Jobs counted from another ordinal. -/
theorem jobs_shift (first : Nat) :
    s.jobs first key t = (s.jobs 0 key t).map fun job => { job with ordinal := first + job.ordinal } := by
  rw [jobs, jobs, List.zipIdx_eq_map_add, List.map_map, List.map_map]
  rfl

end RasterShape

/-! ## The enumerations of the blocks -/

/-- The loop, the iterator in chunks of any sizes and the grid go through the same blocks in
the same order, and these cover the plane. The grid counts them as long as the count is an
`int`, which the pixels of the plane bound. -/
theorem enumerations_agree {Key : Type} {m : Type → Type u} [Monad m] [LawfulMonad m]
    (s : RasterShape) (key : Key) (t : Int) :
    let listed := appendRasterJobs [] s.width s.height s.block s.step key t
    s.Covers (listed.map fun job => (job.x, job.y)) ∧
    (∀ (i : Nat) (job : GroupJob Key), listed[i]? = some job → job.ordinal = i ∧ job.t = t ∧ job.key = key) ∧
    (∀ earlier, appendRasterJobs earlier s.width s.height s.block s.step key t =
      earlier ++ listed.map fun job => { job with ordinal := earlier.length + job.ordinal }) ∧
    (∃ jobs, RasterJobs.new s.width s.height s.block s.step key t = .ok jobs ∧
      jobs.size = listed.length ∧ jobs.toList = listed ∧
      ∀ {Result : Type} (sizes : List Nat) (fresh : Result) (prepare : GroupJob Key → Result → m Result)
        (commit : Result → m Unit), sizes.sum = jobs.size →
        (forM (chunksFrom 0 sizes) fun c => do
          let _ ← commitPreparedChunk (Jobs.ofRaster jobs) c.1 c.2 fresh prepare commit
          pure PUnit.unit) = forM listed fun job => prepare job fresh >>= commit) ∧
    (∃ grid, makeRasterGrid s.width s.height s.block s.step = some grid ∧
      grid.count = (if (listed.length : Int) ≤ intMax then some (listed.length : Int) else none) ∧
      ∀ (i : Nat) (job : GroupJob Key), listed[i]? = some job → (i : Int) ≤ intMax →
        grid.x i = some job.x ∧ grid.y i = some job.y) ∧
    (listed.length : Int) ≤ s.width * s.height := by
  intro listed
  have hlisted : listed = s.jobs 0 key t := s.appendRasterJobs_eq []
  have hindex : ∀ {i : Nat} {job : GroupJob Key}, listed[i]? = some job → i < s.positions.length ∧
      job = ⟨i, s.start s.width (i % s.axis s.width), s.start s.height (i / s.axis s.width), t, key⟩ := by
    intro i job h
    rw [hlisted] at h
    have hi : i < s.positions.length := by
      have := (List.getElem?_eq_some_iff.mp h).1
      rwa [s.length_jobs] at this
    rw [s.getElem?_jobs hi, Nat.zero_add] at h
    exact ⟨hi, (Option.some.inj h).symm⟩
  refine ⟨?_, ?_, ?_, ⟨s.rasterJobs key t, s.rasterJobs_new, ?_, ?_, ?_⟩,
    ⟨s.rasterGrid, s.makeRasterGrid_eq, ?_, ?_⟩, ?_⟩
  · rw [hlisted, s.map_jobs]
    exact s.covers_positions
  · intro i job h
    obtain ⟨-, rfl⟩ := hindex h
    exact ⟨rfl, rfl, rfl⟩
  · intro earlier
    rw [s.appendRasterJobs_eq, s.jobs_shift, hlisted]
  · rw [s.size_rasterJobs, hlisted, s.length_jobs]
  · rw [s.toList_rasterJobs, hlisted]
  · intro Result sizes fresh prepare commit hsizes
    have hall : 0 + sizes.sum ≤ (Jobs.ofRaster (s.rasterJobs key t)).size := by
      rw [hsizes, Nat.zero_add]
      exact Nat.le_refl _
    rw [forM_chunks 0 hall, hlisted, ← s.toList_rasterJobs, RasterJobs.toList, hsizes, List.forM_map,
      List.range_eq_range']
    rfl
  · have hfits : Fits (s.positions.length : Int) ↔ (s.positions.length : Int) ≤ intMax :=
      ⟨fun h => h.2, fun h => ⟨by omega, h⟩⟩
    rw [s.count_rasterGrid, hlisted, s.length_jobs, ofInt]
    simp only [hfits]
  · intro i job h hint
    obtain ⟨hi, rfl⟩ := hindex h
    exact s.position_rasterGrid hi hint
  · rw [hlisted, s.length_jobs]
    exact s.length_positions_le

/-- A plane of five columns and four rows, in blocks of two. -/
theorem enumerations_agree_small :
    (RasterShape.mk 5 4 2 2 (by decide) (by decide) (by decide) (by decide) (by decide) (by decide)).Covers
      ((appendRasterJobs [] 5 4 2 2 () 0).map fun job => (job.x, job.y)) :=
  (enumerations_agree (m := Id) ⟨5, 4, 2, 2, by decide, by decide, by decide, by decide, by decide,
    by decide⟩ () 0).1

/-- A grid of one position a pixel can have more positions than an `int` counts. -/
theorem grid_count_overflows :
    ¬∀ s : RasterShape, ∃ grid, makeRasterGrid s.width s.height s.block s.step = some grid ∧
      grid.count = some ((appendRasterJobs [] s.width s.height s.block s.step () 0).length : Int) := by
  intro h
  obtain ⟨grid, hgrid, hcount⟩ := h ⟨65536, 65536, 1, 1, by decide, by decide, by decide, by decide,
    by decide, by decide⟩
  have hmake : makeRasterGrid 65536 65536 1 1 = some ⟨65536, 65536, 1, 65535, 65535⟩ := by decide
  obtain rfl := Option.some.inj (hmake.symm.trans hgrid)
  have hnone : RasterGrid.count ⟨65536, 65536, 1, 65535, 65535⟩ = none := by decide
  rw [hnone] at hcount
  exact nomatch hcount

end NssFactory.Raster
