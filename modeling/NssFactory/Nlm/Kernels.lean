import Mathlib.Data.List.TakeWhile
import NssFactory.Lib.Numerals
import NssFactory.Nlm.Box

/-!
# The distance and accumulation kernels of NLM

The vector kernels of `cpu/nlm/nlm.cpp` split a row at `|ox|` columns from either border: the
borders are clamped, and between them whole vectors are taken, then the tail. The strided
kernels, for frames whose planes have strides of their own, take the pixels one by one.

* `distance_eq`: a distance kernel writes what the strided one writes.
* `accumInner_eq`: so does `accum_inner`, on maps that start at a row of their own, as long as
  no maximum is negative: it leaves a vector out whose weights are all zero.
* `fast_eq_strided`: both, and that nothing else is touched.
-/

namespace NssFactory.Nlm

attribute [local instance] Numerals.two Numerals.three

variable {A : Type*}

/-- The planes whose distances are summed. -/
inductive ChannelMode where
  | y
  | uv
  | yuv
  | rgb
  deriving DecidableEq

/-- The values of the planes at one pixel. -/
abbrev Pixel (A : Type*) := Nat → A

/-- Planes of one stride. -/
abbrev Planes (A : Type*) := Nat → Int → A

def Planes.at (planes : Planes A) (i : Int) : Pixel A := fun p => planes p i

/-- A row in three parts: the border columns one by one, and between them whole vectors and their
tail. -/
def segments {B : Type*} (lanes ox w base : Int) (border inner : Int → B → B)
    (vector : Int → Int → B → B) (m : Int → B) : Int → B :=
  let startX := min (ox.natAbs : Int) w
  let endX := w - startX
  let m := scalarLoop base border 0 startX m
  let m := if endX > startX then stripLoop base lanes vector inner startX endX m else m
  scalarLoop base border (max endX startX) w m

/-! ## Distances -/

section Distances

variable [Field A]

/-- The rows of a distance kernel: `vector` is a lane of its vectors, `scalar` an element of its
borders and its tail. -/
def distanceRows (lanes : Int) (vector scalar : Pixel A → Pixel A → A) (dst : Int → A)
    (center neighbor : Planes A) (ox oy w h stride : Int) : Int → A :=
  (Int.range 0 h).foldl
    (fun dst y =>
      let y2 := clampi (y + oy) 0 (h - 1)
      segments lanes ox w (y * stride)
        (fun x _ => scalar (center.at (y * stride + x))
          (neighbor.at (y2 * stride + clampi (x + ox) 0 (w - 1))))
        (fun x _ => scalar (center.at (y * stride + x)) (neighbor.at (y2 * stride + x + ox)))
        (fun _ x _ => vector (center.at (y * stride + x)) (neighbor.at (y2 * stride + x + ox)))
        dst)
    dst

def lumaScalar (c n : Pixel A) : A :=
  let t := c 0 - n 0
  3 * t * t

def lumaVector (c n : Pixel A) : A :=
  let da := c 0 - n 0
  da * da * 3

def chromaScalar (c n : Pixel A) : A :=
  let d1 := c 1 - n 1
  let d2 := c 2 - n 2
  3 / 2 * (d1 * d1 + d2 * d2)

def chromaVector (c n : Pixel A) : A :=
  let d1 := c 1 - n 1
  let d2 := c 2 - n 2
  3 / 2 * (d1 * d1 + d2 * d2)

def yuvScalar (c n : Pixel A) : A :=
  let d0 := c 0 - n 0
  let d1 := c 1 - n 1
  let d2 := c 2 - n 2
  d0 * d0 + d1 * d1 + d2 * d2

def yuvVector (c n : Pixel A) : A :=
  let e0 := c 0 - n 0
  let e1 := c 1 - n 1
  let e2 := c 2 - n 2
  e2 * e2 + (e1 * e1 + e0 * e0)

def rgbScalar (c n : Pixel A) : A :=
  let mRed := (c 0 + n 0) / 6
  (2 / 3 + mRed) * (c 0 - n 0) * (c 0 - n 0) + 4 / 3 * (c 1 - n 1) * (c 1 - n 1) +
    (1 - mRed) * (c 2 - n 2) * (c 2 - n 2)

def rgbVector (c n : Pixel A) : A :=
  let mRed := (c 0 + n 0) * (1 / 6)
  let d1 := c 0 - n 0
  let d2 := c 1 - n 1
  let d3 := c 2 - n 2
  let acc := (2 / 3 + mRed) * (d1 * d1)
  let acc := 4 / 3 * (d2 * d2) + acc
  (1 - mRed) * (d3 * d3) + acc

def distanceLuma (lanes : Int) (dst : Int → A) (center neighbor : Planes A)
    (ox oy w h stride : Int) : Int → A :=
  distanceRows lanes lumaVector lumaScalar dst center neighbor ox oy w h stride

def distanceChroma (lanes : Int) (dst : Int → A) (center neighbor : Planes A)
    (ox oy w h stride : Int) : Int → A :=
  distanceRows lanes chromaVector chromaScalar dst center neighbor ox oy w h stride

def distanceYUV (lanes : Int) (dst : Int → A) (center neighbor : Planes A)
    (ox oy w h stride : Int) : Int → A :=
  distanceRows lanes yuvVector yuvScalar dst center neighbor ox oy w h stride

def distanceRGB (lanes : Int) (dst : Int → A) (center neighbor : Planes A)
    (ox oy w h stride : Int) : Int → A :=
  distanceRows lanes rgbVector rgbScalar dst center neighbor ox oy w h stride

/-- The kernel of a channel mode. -/
def distanceFast (mode : ChannelMode) (lanes : Int) (dst : Int → A) (center neighbor : Planes A)
    (ox oy w h stride : Int) : Int → A :=
  match mode with
  | .y => distanceLuma lanes dst center neighbor ox oy w h stride
  | .uv => distanceChroma lanes dst center neighbor ox oy w h stride
  | .yuv => distanceYUV lanes dst center neighbor ox oy w h stride
  | .rgb => distanceRGB lanes dst center neighbor ox oy w h stride

/-- The first plane of a mode, and their number. -/
def firstPlane (mode : ChannelMode) : Nat := if mode = .uv then 1 else 0

def numChannels (mode : ChannelMode) : Nat := if mode = .y then 1 else if mode = .uv then 2 else 3

/-- A distance as the strided kernel sums it. -/
def stridedDistance (mode : ChannelMode) (c n : Pixel A) : A :=
  match mode with
  | .y =>
    let d := c 0 - n 0
    3 * d * d
  | .uv =>
    let d1 := c 1 - n 1
    let d2 := c 2 - n 2
    3 / 2 * (d1 * d1 + d2 * d2)
  | .yuv => (List.range 3).foldl (fun value p => value + (c p - n p) * (c p - n p)) 0
  | .rgb =>
    let mRed := (c 0 + n 0) / 6
    let d1 := c 0 - n 0
    let d2 := c 1 - n 1
    let d3 := c 2 - n 2
    (2 / 3 + mRed) * d1 * d1 + 4 / 3 * d2 * d2 + (1 - mRed) * d3 * d3

/-- Pixel `(y, x)` of planes with strides of their own. -/
def Planes.pixel (planes : Planes A) (strides : Nat → Int) (y x : Int) : Pixel A :=
  fun p => planes p (y * strides p + x)

def distanceStrided (mode : ChannelMode) (dst : Int → A) (center : Planes A)
    (centerStrides : Nat → Int) (neighbor : Planes A) (neighborStrides : Nat → Int)
    (ox oy w h dstStride : Int) : Int → A :=
  if w < 1 ∨ h < 1 ∨ dstStride < w then dst
  else if (List.range (numChannels mode)).any fun c =>
      centerStrides (firstPlane mode + c) < w || neighborStrides (firstPlane mode + c) < w then dst
  else
    (Int.range 0 h).foldl
      (fun dst y =>
        let ny := clampi (y + oy) 0 (h - 1)
        scalarLoop (y * dstStride)
          (fun x _ =>
            let nx := clampi (x + ox) 0 (w - 1)
            stridedDistance mode (center.pixel centerStrides y x)
              (neighbor.pixel neighborStrides ny nx))
          0 w dst)
      dst

end Distances

/-! ## Sums -/

/-- The sums of a pixel: its weights, their largest, and the weighted sums of the channels. -/
structure Sums (A : Type*) where
  weight : A
  maxWeight : A
  wdst : Nat → A

section Accumulation

variable [Field A] [LinearOrder A]

/-- The two neighbours of a pixel at an offset, with their weights. -/
def Sums.add (sums : Sums A) (nch : Nat) (u4 u4mq : A) (bwd fwd : Pixel A) : Sums A where
  weight := sums.weight + (u4 + u4mq)
  maxWeight := max (max u4 u4mq) sums.maxWeight
  wdst := fun c => if c < nch then sums.wdst c + (u4 * bwd c + u4mq * fwd c) else sums.wdst c

/-- The arguments of `accum_inner`: row `temp1BaseY` of the frame is the first of `temp1`, and so
on. -/
structure AccumArgs (A : Type*) where
  nch : Nat
  bwd : Planes A
  fwd : Planes A
  temp1 : Int → A
  temp2 : Int → A
  ox : Int
  oy : Int
  w : Int
  h : Int
  stride : Int
  temp1BaseY : Int
  temp2BaseY : Int

namespace AccumArgs

variable (a : AccumArgs A)

def u4 (y x : Int) : A := a.temp1 ((y - a.temp1BaseY) * a.stride + x)

/-- The mirrored weight, at a row of the frame. -/
def u4mq (yMq xMq : Int) : A := a.temp2 ((yMq - a.temp2BaseY) * a.stride + xMq)

/-- A pixel near a border. -/
def border (y x : Int) (s : Sums A) : Sums A :=
  let yPq := clampi (y + a.oy) 0 (a.h - 1)
  let yMq := clampi (y - a.oy) 0 (a.h - 1)
  let xPq := clampi (x + a.ox) 0 (a.w - 1)
  let xMq := clampi (x - a.ox) 0 (a.w - 1)
  s.add a.nch (a.u4 y x) (a.u4mq yMq xMq) (a.bwd.at (yPq * a.stride + xPq))
    (a.fwd.at (yMq * a.stride + xMq))

/-- A pixel between the borders. -/
def middle (y x : Int) (s : Sums A) : Sums A :=
  let yPq := clampi (y + a.oy) 0 (a.h - 1)
  let yMq := clampi (y - a.oy) 0 (a.h - 1)
  s.add a.nch (a.u4 y x) (a.u4mq yMq (x - a.ox)) (a.bwd.at (yPq * a.stride + (x + a.ox)))
    (a.fwd.at (yMq * a.stride + (x - a.ox)))

/-- A lane of the vector at `x0`. A vector whose weights are all zero is left out. -/
def lane (lanes y x0 x : Int) (s : Sums A) : Sums A :=
  let yMq := clampi (y - a.oy) 0 (a.h - 1)
  if (Int.range x0 (x0 + lanes)).all fun x =>
      decide (a.u4 y x = 0) && decide (a.u4mq yMq (x - a.ox) = 0) then s
  else a.middle y x s

def accumInner (lanes y0 y1 : Int) (sums : Int → Sums A) : Int → Sums A :=
  (Int.range y0 y1).foldl
    (fun sums y => segments lanes a.ox a.w ((y - y0) * a.stride) (a.border y) (a.middle y)
      (a.lane lanes y) sums)
    sums

end AccumArgs

def accumStrided (nch : Nat) (bwd : Planes A) (bwdStrides : Nat → Int) (fwd : Planes A)
    (fwdStrides : Nat → Int) (temp1 temp2 : Int → A) (ox oy w h stride y0 y1 temp1BaseY : Int)
    (sums : Int → Sums A) : Int → Sums A :=
  if w < 1 ∨ h < 1 ∨ stride < w ∨ y0 < 0 ∨ y1 < y0 ∨ y1 > h ∨ temp1BaseY < 0 then sums
  else
    let nch := max 1 (min 3 nch)
    if (List.range nch).any fun c => bwdStrides c < w || fwdStrides c < w then sums
    else
      -- a row before the map ends the loop
      ((Int.range y0 y1).takeWhile fun y => 0 ≤ y - temp1BaseY).foldl
        (fun sums y =>
          scalarLoop ((y - y0) * stride)
            (fun x s =>
              let yMq := clampi (y - oy) 0 (h - 1)
              let yPq := clampi (y + oy) 0 (h - 1)
              let xMq := clampi (x - ox) 0 (w - 1)
              let xPq := clampi (x + ox) 0 (w - 1)
              let u := temp1 ((y - temp1BaseY) * stride + x)
              let um := temp2 (yMq * stride + xMq)
              { weight := s.weight + (u + um)
                maxWeight := max s.maxWeight (max u um)
                wdst := fun c =>
                  if c < nch then
                    s.wdst c + (u * bwd.pixel bwdStrides yPq xPq c +
                      um * fwd.pixel fwdStrides yMq xMq c)
                  else s.wdst c })
            0 w sums)
        sums

end Accumulation

/-! ## Fast and strided -/

variable {B : Type*} {lanes ox oy w h stride base y0 y1 temp1BaseY temp2BaseY : Int}
variable {border inner : Int → B → B} {vector : Int → Int → B → B} {m : Int → B}

/-- Three parts that agree with the border's function make one loop. -/
theorem segments_eq (hl : 0 < lanes) (hw : 0 ≤ w)
    (hinner : ∀ x, (ox.natAbs : Int) ≤ x → x < w - ox.natAbs →
      inner x (m (base + x)) = border x (m (base + x)))
    (hvector : ∀ c x, (ox.natAbs : Int) ≤ c → c + lanes ≤ w - ox.natAbs → c ≤ x → x < c + lanes →
      vector c x (m (base + x)) = border x (m (base + x))) :
    segments lanes ox w base border inner vector m = scalarLoop base border 0 w m := by
  simp only [segments]
  split
  · rename_i hin
    have hstart : min (ox.natAbs : Int) w = ox.natAbs := by omega
    rw [hstart] at hin ⊢
    -- the left border has not touched what comes behind it
    have hafter : ∀ x, (ox.natAbs : Int) ≤ x →
        scalarLoop base border 0 ox.natAbs m (base + x) = m (base + x) := fun x hx => by
      rw [scalarLoop_apply, if_neg (by omega)]
    have hmid : stripLoop base lanes vector inner ox.natAbs (w - ox.natAbs)
        (scalarLoop base border 0 ox.natAbs m) =
        scalarLoop base border ox.natAbs (w - ox.natAbs)
          (scalarLoop base border 0 ox.natAbs m) := by
      rw [stripLoop_eq hl (f := vector) (g := inner) fun c x hc hcw hx hxc => ?_]
      · refine scalarLoop_congr fun x hx hxw => ?_
        rw [hafter x hx]
        exact hinner x hx hxw
      · rw [hafter x (by omega), hvector c x hc hcw hx hxc, hinner x (by omega) (by omega)]
    rw [hmid, show max (w - (ox.natAbs : Int)) ox.natAbs = w - ox.natAbs by omega,
      scalarLoop_append (by omega) (by omega), scalarLoop_append (by omega) (by omega)]
  · rw [show max (w - min (ox.natAbs : Int) w) (min (ox.natAbs : Int) w) = min (ox.natAbs : Int) w
      by omega, scalarLoop_append (by omega) (by omega)]

/-- A pixel of the strided planes with one stride for all. -/
theorem pixel_const (planes : Planes A) (y x : Int) :
    planes.pixel (fun _ => stride) y x = planes.at (y * stride + x) := rfl

section Distances

variable [Field A] {dst : Int → A} {center neighbor : Planes A}

theorem lumaVector_eq (c n : Pixel A) : lumaVector c n = lumaScalar c n := by
  simp only [lumaVector, lumaScalar]
  ring

theorem yuvVector_eq (c n : Pixel A) : yuvVector c n = yuvScalar c n := by
  simp only [yuvVector, yuvScalar]
  ring

theorem rgbVector_eq (c n : Pixel A) : rgbVector c n = rgbScalar c n := by
  simp only [rgbVector, rgbScalar]
  ring

omit [Field A] in
/-- The rows of a distance kernel, pixel by pixel. -/
theorem distanceRows_eq {vector scalar : Pixel A → Pixel A → A} (hl : 0 < lanes) (hw : 0 ≤ w)
    (hv : ∀ c n, vector c n = scalar c n) :
    distanceRows lanes vector scalar dst center neighbor ox oy w h stride =
      rowsLoop (fun y x _ => scalar (center.at (y * stride + x))
        (neighbor.at (clampi (y + oy) 0 (h - 1) * stride + clampi (x + ox) 0 (w - 1))))
        w stride 0 0 h dst := by
  refine rowsLoop_eq (fun _ => True) trivial (fun y m _ _ _ => ?_) fun _ _ _ _ _ => trivial
  have hin : ∀ x, (ox.natAbs : Int) ≤ x → x < w - ox.natAbs →
      clampi (x + ox) 0 (w - 1) = x + ox := fun x hx hxw => clampi_of_mem (by omega) (by omega)
  rw [Int.sub_zero, segments_eq hl hw]
  · intro x hx hxw
    rw [hin x hx hxw, Int.add_assoc]
  · intro c x hc hcw hx hxc
    rw [hv, hin x (by omega) (by omega), Int.add_assoc]

/-- The distance of two pixels, as a mode's scalar code has it. -/
theorem stridedDistance_eq (mode : ChannelMode) (c n : Pixel A) :
    stridedDistance mode c n = match mode with
      | .y => lumaScalar c n
      | .uv => chromaScalar c n
      | .yuv => yuvScalar c n
      | .rgb => rgbScalar c n := by
  cases mode with
  | y => rfl
  | uv => rfl
  | yuv => simp [stridedDistance, yuvScalar, List.range_succ]
  | rgb => rfl

theorem distanceFast_eq (mode : ChannelMode) (hl : 0 < lanes) (hw : 0 ≤ w) :
    distanceFast mode lanes dst center neighbor ox oy w h stride =
      rowsLoop (fun y x _ => stridedDistance mode (center.at (y * stride + x))
        (neighbor.at (clampi (y + oy) 0 (h - 1) * stride + clampi (x + ox) 0 (w - 1))))
        w stride 0 0 h dst := by
  simp only [stridedDistance_eq]
  cases mode with
  | y => exact distanceRows_eq hl hw lumaVector_eq
  | uv => exact distanceRows_eq hl hw fun _ _ => rfl
  | yuv => exact distanceRows_eq hl hw yuvVector_eq
  | rgb => exact distanceRows_eq hl hw rgbVector_eq

theorem distanceStrided_eq (mode : ChannelMode) {centerStrides neighborStrides : Nat → Int}
    (hw : 1 ≤ w) (hh : 1 ≤ h) (hs : w ≤ stride)
    (hc : ∀ c < numChannels mode, w ≤ centerStrides (firstPlane mode + c))
    (hn : ∀ c < numChannels mode, w ≤ neighborStrides (firstPlane mode + c)) :
    distanceStrided mode dst center centerStrides neighbor neighborStrides ox oy w h stride =
      rowsLoop (fun y x _ => stridedDistance mode (center.pixel centerStrides y x)
        (neighbor.pixel neighborStrides (clampi (y + oy) 0 (h - 1)) (clampi (x + ox) 0 (w - 1))))
        w stride 0 0 h dst := by
  have hany : ((List.range (numChannels mode)).any fun c =>
      centerStrides (firstPlane mode + c) < w || neighborStrides (firstPlane mode + c) < w) =
        false := by
    rw [List.any_eq_false]
    intro c hmem
    have := hc c (List.mem_range.mp hmem)
    have := hn c (List.mem_range.mp hmem)
    simp
    omega
  rw [distanceStrided, if_neg (by omega), if_neg (by simp [hany])]
  exact rowsLoop_eq (fun _ => True) trivial (fun y m _ _ _ => by rw [Int.sub_zero])
    fun _ _ _ _ _ => trivial

end Distances

section Accumulation

variable [Field A] [LinearOrder A] {a : AccumArgs A} {sums : Int → Sums A}

theorem Sums.add_zero {nch : Nat} (s : Sums A) (hs : 0 ≤ s.maxWeight) (b f : Pixel A) :
    s.add nch 0 0 b f = s := by
  simp [Sums.add, hs]

namespace AccumArgs

theorem middle_eq (y : Int) {x : Int} (hx : (a.ox.natAbs : Int) ≤ x) (hxw : x < a.w - a.ox.natAbs) :
    a.middle y x = a.border y x := by
  funext s
  have hp : clampi (x + a.ox) 0 (a.w - 1) = x + a.ox := clampi_of_mem (by omega) (by omega)
  have hm : clampi (x - a.ox) 0 (a.w - 1) = x - a.ox := clampi_of_mem (by omega) (by omega)
  simp only [middle, border, hp, hm]

/-- Leaving out zero weights changes no sum. -/
theorem lane_eq (y : Int) {x0 x : Int} (hx : x0 ≤ x) (hx0 : x < x0 + lanes) {s : Sums A}
    (hs : 0 ≤ s.maxWeight) : a.lane lanes y x0 x s = a.middle y x s := by
  simp only [lane]
  split
  · rename_i hall
    have hzero := List.all_eq_true.mp hall x (Int.mem_range_iff.mpr ⟨hx, hx0⟩)
    simp only [Bool.and_eq_true, decide_eq_true_eq] at hzero
    simp only [middle, hzero.1, hzero.2, Sums.add_zero s hs]
  · rfl

theorem row_eq (hl : 0 < lanes) (hw : 0 ≤ a.w) (y : Int) {m : Int → Sums A}
    (hm : ∀ i, 0 ≤ (m i).maxWeight) :
    segments lanes a.ox a.w base (a.border y) (a.middle y) (a.lane lanes y) m =
      scalarLoop base (a.border y) 0 a.w m := by
  refine segments_eq hl hw (fun x hx hxw => by rw [middle_eq y hx hxw]) fun c x hc hcw hx hxc => ?_
  rw [lane_eq y hx hxc (hm _), middle_eq y (by omega) (by omega)]

theorem accumInner_eq (hl : 0 < lanes) (hw : 0 ≤ a.w) (hmax : ∀ i, 0 ≤ (sums i).maxWeight) :
    a.accumInner lanes y0 y1 sums = rowsLoop a.border a.w a.stride y0 y0 y1 sums := by
  refine rowsLoop_eq (fun m => ∀ i, 0 ≤ (m i).maxWeight) hmax (fun y m _ _ hm => row_eq hl hw y hm)
    fun y m _ _ hm i => ?_
  rw [row_eq hl hw y hm, scalarLoop_apply]
  split
  · exact le_max_of_le_right (hm i)
  · exact hm i

end AccumArgs

theorem accumStrided_eq {nch : Nat} {bwd fwd : Planes A} {bwdStrides fwdStrides : Nat → Int}
    {temp1 temp2 : Int → A} (hw : 1 ≤ w) (hs : w ≤ stride) (hb : ∀ c < nch, w ≤ bwdStrides c)
    (hf : ∀ c < nch, w ≤ fwdStrides c) (h0 : 0 ≤ y0) (h01 : y0 ≤ y1) (h1 : y1 ≤ h)
    (ht : 0 ≤ temp1BaseY) (ht0 : temp1BaseY ≤ y0) (hn : 1 ≤ nch) (hn3 : nch ≤ 3) :
    accumStrided nch bwd bwdStrides fwd fwdStrides temp1 temp2 ox oy w h stride y0 y1 temp1BaseY
        sums =
      rowsLoop (fun y x s => s.add nch (temp1 ((y - temp1BaseY) * stride + x))
        (temp2 (clampi (y - oy) 0 (h - 1) * stride + clampi (x - ox) 0 (w - 1)))
        (bwd.pixel bwdStrides (clampi (y + oy) 0 (h - 1)) (clampi (x + ox) 0 (w - 1)))
        (fwd.pixel fwdStrides (clampi (y - oy) 0 (h - 1)) (clampi (x - ox) 0 (w - 1))))
        w stride y0 y0 y1 sums := by
  have hnch : max 1 (min 3 nch) = nch := by omega
  have hany : ((List.range nch).any fun c =>
      decide (bwdStrides c < w) || decide (fwdStrides c < w)) = false := by
    rw [List.any_eq_false]
    intro c hmem
    have := hb c (List.mem_range.mp hmem)
    have := hf c (List.mem_range.mp hmem)
    simp
    omega
  have hall : ((Int.range y0 y1).takeWhile fun y => decide (0 ≤ y - temp1BaseY)) =
      Int.range y0 y1 := by
    rw [List.takeWhile_eq_self_iff]
    intro y hy
    have := Int.mem_range_iff.mp hy
    simp
    omega
  by_cases hh : y1 < y0 + 1
  · -- no rows
    have hempty : Int.range y0 y1 = [] := Loops.range_empty (by omega)
    simp only [accumStrided, rowsLoop, hempty, List.takeWhile_nil, List.foldl_nil, ite_self]
  · rw [accumStrided, if_neg (by omega)]
    simp only [hnch, hany, Bool.false_eq_true, if_false, hall]
    refine rowsLoop_eq (fun _ => True) trivial (fun y m _ _ _ => ?_) fun _ _ _ _ _ => trivial
    congr 1
    funext x s
    simp only [Sums.add, max_comm s.maxWeight]

/-- **Fast equals strided.** On planes of one stride, for every offset, the vector kernels write
what the strided ones write: the distances of every mode, and the sums of the rows asked for,
when the second map starts at a row of its own; and they touch nothing outside those rows. The
maxima start at a positive number. -/
theorem fast_eq_strided (mode : ChannelMode) (lanes : Int) (hl : 0 < lanes) (w h stride : Int)
    (hw : 1 ≤ w) (hh : 1 ≤ h) (hs : w ≤ stride) :
    (∀ (dst : Int → A) (center neighbor : Planes A) (ox oy : Int),
      distanceFast mode lanes dst center neighbor ox oy w h stride =
        distanceStrided mode dst center (fun _ => stride) neighbor (fun _ => stride) ox oy w h
          stride ∧
      ∀ i, (∀ y x, 0 ≤ y → y < h → 0 ≤ x → x < w → i ≠ y * stride + x) →
        distanceFast mode lanes dst center neighbor ox oy w h stride i = dst i) ∧
    ∀ (a : AccumArgs A) (y0 y1 : Int) (sums : Int → Sums A), a.w = w → a.h = h →
      a.stride = stride → a.nch = numChannels mode → 0 ≤ y0 → y0 ≤ y1 → y1 ≤ h →
      0 ≤ a.temp1BaseY → a.temp1BaseY ≤ y0 → (∀ i, 0 ≤ (sums i).maxWeight) →
        a.accumInner lanes y0 y1 sums =
          accumStrided a.nch a.bwd (fun _ => stride) a.fwd (fun _ => stride) a.temp1
            (fun i => a.temp2 (i - a.temp2BaseY * stride)) a.ox a.oy w h stride y0 y1
            a.temp1BaseY sums ∧
        ∀ i, (∀ y x, y0 ≤ y → y < y1 → 0 ≤ x → x < w → i ≠ (y - y0) * stride + x) →
          a.accumInner lanes y0 y1 sums i = sums i := by
  constructor
  · intro dst center neighbor ox oy
    rw [distanceStrided_eq mode hw hh hs (fun _ _ => hs) fun _ _ => hs,
      distanceFast_eq mode hl (by omega)]
    exact ⟨rfl, fun i hi => rowsLoop_off hs fun y x h0 h1 => by
      rw [Int.sub_zero]
      exact hi y x h0 h1⟩
  · rintro a y0 y1 sums rfl rfl rfl hn h0 h01 h1 ht ht0 hmax
    have hch : 1 ≤ a.nch ∧ a.nch ≤ 3 := by
      rw [hn]
      cases mode <;> decide
    rw [AccumArgs.accumInner_eq hl (by omega) hmax,
      accumStrided_eq hw hs (fun _ _ => hs) (fun _ _ => hs) h0 h01 h1 ht ht0 hch.1 hch.2]
    refine ⟨?_, fun i hi => rowsLoop_off hs hi⟩
    congr 1
    funext y x s
    simp only [AccumArgs.border, AccumArgs.u4, AccumArgs.u4mq, pixel_const, Int.sub_mul]
    rw [add_sub_right_comm]

/-- An offset wider than the frame, and the last row of a map that starts behind the first. -/
def wideOffset : AccumArgs ℚ where
  nch := 2
  bwd c i := c + i
  fwd c i := c - i
  temp1 i := i
  temp2 i := 2 * i
  ox := -7
  oy := 9
  w := 3
  h := 4
  stride := 5
  temp1BaseY := 2
  temp2BaseY := 1

theorem fast_eq_strided_wideOffset :
    distanceFast .uv 8 (fun _ => 0) wideOffset.bwd wideOffset.fwd (-7) 9 3 4 5 =
      distanceStrided .uv (fun _ => 0) wideOffset.bwd (fun _ => 5) wideOffset.fwd (fun _ => 5)
        (-7) 9 3 4 5 ∧
    wideOffset.accumInner 8 3 4 (fun _ => ⟨0, 1, fun _ => 0⟩) =
      accumStrided 2 wideOffset.bwd (fun _ => 5) wideOffset.fwd (fun _ => 5) wideOffset.temp1
        (fun i => wideOffset.temp2 (i - 1 * 5)) (-7) 9 3 4 5 3 4 2 (fun _ => ⟨0, 1, fun _ => 0⟩) := by
  obtain ⟨hdistance, haccum⟩ := fast_eq_strided (A := ℚ) .uv 8 (by decide) 3 4 5 (by decide)
    (by decide) (by decide)
  exact ⟨(hdistance _ _ _ _ _).1, (haccum wideOffset 3 4 _ rfl rfl rfl rfl (by decide) (by decide)
    (by decide) (by decide) (by decide) (fun _ => by norm_num)).1⟩

end Accumulation

end NssFactory.Nlm
