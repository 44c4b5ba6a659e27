import Mathlib.Algebra.Order.Field.Basic
import Mathlib.Tactic.Abel
import Mathlib.Tactic.Ring
import NssFactory.Lib.Lanes

/-!
# The box filter of NLM

`HorizontalFixedS`, `Horizontal` and `vertical_range` of `cpu/nlm/nlm.cpp`, in exact arithmetic
and for vectors of any number of lanes. A row is summed over the patch columns with a left
border, a vector interior, its tail and a right border; the rows are then summed over the patch
rows in a buffer that slides down, and the weight of each sum is written for the rows asked for.

* `horizontal_at`: the row sums, at clamped columns.
* `Sliding`: what the buffer holds before row `y`.
* `verticalRange_at`: the weight of the patch sum, at clamped rows and columns.
-/

namespace NssFactory.Nlm

variable {A : Type*} [Field A]

/-- The weight of a box-summed distance. -/
inductive NlmWeight where
  | welsch
  | bisquareA
  | bisquareB
  | bisquareC

def clampi (x lo hi : Int) : Int := if x < lo then lo else if x > hi then hi else x

/-- `scale` is `-h2_inv_norm`; `exp` is the kernel's exponential. -/
def weightOf [LinearOrder A] (exp : A → A) (weight : NlmWeight) (sum scale : A) : A :=
  match weight with
  | .welsch => exp (sum * scale)
  | .bisquareA => max (sum * scale + 1) 0
  | .bisquareB => max (sum * scale + 1) 0 * max (sum * scale + 1) 0
  | .bisquareC =>
    let t := max (sum * scale + 1) 0
    let t2 := t * t
    let t4 := t2 * t2
    t4 * t4

/-! ## Row sums -/

/-- A sum over the patch columns near a border. -/
def edgeSum (s w : Int) (row : Int → A) (x : Int) : A :=
  (Int.range (-s) (s + 1)).foldl (fun sum j => sum + row (clampi (x + j) 0 (w - 1))) 0

/-- A sum away from the borders. -/
def innerSum (s : Int) (row : Int → A) (x : Int) : A :=
  (Int.range (-s) (s + 1)).foldl (fun sum j => sum + row (x + j)) 0

/-- A lane of the vector sums of the fixed radii 1 to 4. -/
def fixedSum (s : Int) (row : Int → A) (x : Int) : A :=
  let a := fun k => row (x - s + k)
  let p01 := a 0 + a 1
  let p23 := a 2 + a 3
  let p45 := a 4 + a 5
  let p67 := a 6 + a 7
  if s = 1 then p01 + a 2
  else if s = 2 then p01 + p23 + a 4
  else if s = 3 then p01 + p23 + (p45 + a 6)
  else p01 + p23 + (p45 + p67 + a 8)

/-- A row of `HorizontalFixedS`. -/
def horizontalFixedS (lanes s w : Int) (row : Int → A) (base : Int) (out : Int → A) : Int → A :=
  let innerEnd := w - s
  let out := scalarLoop base (fun x _ => edgeSum s w row x) 0 (min s w) out
  let out := stripLoop base lanes (fun _ x _ => fixedSum s row x) (fun x _ => innerSum s row x)
    s innerEnd out
  scalarLoop base (fun x _ => edgeSum s w row x) (max s innerEnd) w out

/-- A row of `Horizontal` for the other radii. -/
def horizontalRow (lanes s w : Int) (row : Int → A) (base : Int) (out : Int → A) : Int → A :=
  let left := min s w
  let innerEnd := w - s
  let out := scalarLoop base (fun x _ => edgeSum s w row x) 0 left out
  if innerEnd > left then
    let out := stripLoop base lanes (fun _ x _ => innerSum s row x) (fun x _ => innerSum s row x)
      left innerEnd out
    scalarLoop base (fun x _ => edgeSum s w row x) innerEnd w out
  else scalarLoop base (fun x _ => edgeSum s w row x) left w out

/-- The row of either, by the radius. -/
def horizontalOf (lanes s w : Int) (row : Int → A) (base : Int) (out : Int → A) : Int → A :=
  if s = 1 ∨ s = 2 ∨ s = 3 ∨ s = 4 then horizontalFixedS lanes s w row base out
  else horizontalRow lanes s w row base out

def horizontal (lanes : Int) (dst src : Int → A) (s w h stride : Int) : Int → A :=
  (Int.range 0 h).foldl
    (fun dst y => horizontalOf lanes s w (fun x => src (y * stride + x)) (y * stride) dst) dst

/-! ## Column sums -/

def scaleRow (lanes : Int) (dst src : Int → A) (s : A) (n : Int) : Int → A :=
  stripLoop 0 lanes (fun _ x _ => s * src x) (fun x _ => s * src x) 0 n dst

def addRow (lanes : Int) (dst src : Int → A) (n : Int) : Int → A :=
  stripLoop 0 lanes (fun _ x a => a + src x) (fun x a => a + src x) 0 n dst

def addSubRow (lanes : Int) (buffer add sub : Int → A) (n : Int) : Int → A :=
  stripLoop 0 lanes (fun _ x a => a + add x - sub x) (fun x a => a + add x - sub x) 0 n buffer

/-- The row of `dst` at `base`, and the buffer: each stores what it makes of the buffer as it
was. -/
def addWeightSubRow (lanes : Int) (weigh : A → A) (base : Int) (dst buffer add sub : Int → A)
    (n : Int) : (Int → A) × (Int → A) :=
  let weighed := fun x => weigh (buffer x + add x)
  (stripLoop base lanes (fun _ x _ => weighed x) (fun x _ => weighed x) 0 n dst,
    addSubRow lanes buffer add sub n)

/-- The weights of the rows `y0 ≤ y < y1`, the first of them in the first row of `dst`. The buffer
slides over all rows before them. -/
def verticalRange (lanes : Int) (weigh : A → A) (dst src : Int → A)
    (radius w h stride y0 y1 : Int) (buffer : Int → A) : (Int → A) × (Int → A) :=
  let buffer := scaleRow lanes buffer src radius w
  let buffer := (Int.range 0 radius).foldl
    (fun buffer y => addRow lanes buffer (fun x => src (min y (h - 1) * stride + x)) w) buffer
  (Int.range 0 y1).foldl
    (fun (s : (Int → A) × (Int → A)) y =>
      let add := fun x => src (min (y + radius) (h - 1) * stride + x)
      let sub := fun x => src (max (y - radius) 0 * stride + x)
      if y < y0 then (s.1, addSubRow lanes s.2 add sub w)
      else addWeightSubRow lanes weigh ((y - y0) * stride) s.1 s.2 add sub w)
    (dst, buffer)

def verticalWeightRange [LinearOrder A] (lanes : Int) (exp : A → A) (dst src : Int → A) (radius : Int)
    (weight : NlmWeight) (h2InvNorm : A) (w h stride y0 y1 : Int) (buffer : Int → A) :
    (Int → A) × (Int → A) :=
  verticalRange lanes (fun sum => weightOf exp weight sum (-h2InvNorm)) dst src radius w h stride
    y0 y1 buffer

/-! ## What the row sums hold -/

variable {lanes s w h stride base x y : Int} {row : Int → A} {out dst src buffer : Int → A}

theorem clampi_eq (x : Int) {lo hi : Int} (h : lo ≤ hi) : clampi x lo hi = max lo (min x hi) := by
  unfold clampi
  split
  · omega
  · split <;> omega

theorem clampi_of_mem {lo hi : Int} (h : lo ≤ x) (h' : x ≤ hi) : clampi x lo hi = x := by
  unfold clampi
  rw [if_neg (by omega), if_neg (by omega)]

theorem edgeSum_eq_sum :
    edgeSum s w row x = ∑ j ∈ points (-s) (s + 1), row (clampi (x + j) 0 (w - 1)) := by
  rw [edgeSum, foldl_add_eq_sum, zero_add]

/-- Away from the borders nothing is clamped. -/
theorem innerSum_eq (hx : s ≤ x) (hxw : x < w - s) : innerSum s row x = edgeSum s w row x := by
  refine List.foldl_ext _ _ _ fun sum j hj => ?_
  have := Int.mem_range_iff.mp hj
  rw [clampi_of_mem (by omega) (by omega)]

/-- The vector sums of the fixed radii add the same terms. -/
theorem fixedSum_eq (hs : s = 1 ∨ s = 2 ∨ s = 3 ∨ s = 4) : fixedSum s row x = innerSum s row x := by
  have hterm : ∀ k : Int, x - s + k = x + (k - s) := fun k => by omega
  simp only [fixedSum, hterm]
  rcases hs with rfl | rfl | rfl | rfl <;>
    simp [innerSum, Int.range, List.range_succ] <;> ring_nf

theorem horizontalFixedS_eq (hl : 0 < lanes) (hs : s = 1 ∨ s = 2 ∨ s = 3 ∨ s = 4) :
    horizontalFixedS lanes s w row base out =
      scalarLoop base (fun x _ => edgeSum s w row x) 0 w out := by
  simp only [horizontalFixedS]
  rw [stripLoop_eq (f := fun _ x _ => fixedSum s row x) (g := fun x _ => innerSum s row x) hl
      fun _ _ _ _ _ _ => fixedSum_eq hs,
    scalarLoop_congr (f := fun x _ => innerSum s row x) (g := fun x _ => edgeSum s w row x)
      fun x hx hxw => innerSum_eq hx hxw]
  -- every column is in exactly one of the three parts
  funext i
  rw [scalarLoop_apply, scalarLoop_apply, scalarLoop_apply, scalarLoop_apply]
  split_ifs <;> first | rfl | omega

theorem horizontalRow_eq (hl : 0 < lanes) (hs : 0 ≤ s) (hw : 0 ≤ w) :
    horizontalRow lanes s w row base out =
      scalarLoop base (fun x _ => edgeSum s w row x) 0 w out := by
  simp only [horizontalRow]
  split
  · rename_i hin
    rw [stripLoop_self hl,
      scalarLoop_congr (f := fun x _ => innerSum s row x) (g := fun x _ => edgeSum s w row x)
        fun x hx hxw => innerSum_eq (by omega) hxw,
      scalarLoop_append (by omega) (by omega), scalarLoop_append (by omega) (by omega)]
  · exact scalarLoop_append (by omega) (by omega)

theorem horizontalOf_eq (hl : 0 < lanes) (hs : 0 ≤ s) (hw : 0 ≤ w) :
    horizontalOf lanes s w row base out =
      scalarLoop base (fun x _ => edgeSum s w row x) 0 w out := by
  unfold horizontalOf
  split
  · exact horizontalFixedS_eq hl ‹_›
  · exact horizontalRow_eq hl hs hw

/-- The rows of `Horizontal` hold the sums over the patch columns. -/
theorem horizontal_at (hl : 0 < lanes) (hs : 0 ≤ s) (hw : w ≤ stride) (hx : 0 ≤ x) (hxw : x < w)
    (hy : 0 ≤ y) (hyh : y < h) :
    horizontal lanes dst src s w h stride (y * stride + x) =
      ∑ j ∈ points (-s) (s + 1), src (y * stride + clampi (x + j) 0 (w - 1)) := by
  have hrows : horizontal lanes dst src s w h stride =
      rowsLoop (fun y x _ => edgeSum s w (fun x => src (y * stride + x)) x) w stride 0 0 h dst :=
    rowsLoop_eq (fun _ => True) trivial
      (fun y m _ _ _ => by rw [horizontalOf_eq hl hs (by omega), Int.sub_zero])
      fun _ _ _ _ _ => trivial
  rw [hrows, rowsLoop_zero_at hw hy hyh hx hxw, edgeSum_eq_sum]

/-! ## What the column sums hold -/

variable {radius y0 y1 n : Int} {weigh : A → A} {add sub : Int → A}

theorem scaleRow_at (hl : 0 < lanes) {s : A} (hx : 0 ≤ x) (hxw : x < n) :
    scaleRow lanes dst src s n x = s * src x := by
  rw [scaleRow, stripLoop_self hl, scalarLoop_apply, if_pos (by omega),
    Int.sub_zero]

theorem addRow_at (hl : 0 < lanes) (hx : 0 ≤ x) (hxw : x < n) :
    addRow lanes dst src n x = dst x + src x := by
  rw [addRow, stripLoop_self hl, scalarLoop_apply, if_pos (by omega),
    Int.sub_zero]

theorem addSubRow_at (hl : 0 < lanes) (hx : 0 ≤ x) (hxw : x < n) :
    addSubRow lanes buffer add sub n x = buffer x + add x - sub x := by
  rw [addSubRow, stripLoop_self hl, scalarLoop_apply, if_pos (by omega),
    Int.sub_zero]

/-- Row `k` of the source, clamped to the frame. -/
def clampedRow (src : Int → A) (h stride k x : Int) : A := src (clampi k 0 (h - 1) * stride + x)

/-- The buffer before row `y`: the rows from `radius` before it to the one before `radius` behind
it. -/
def Sliding (src : Int → A) (radius w h stride y : Int) (buffer : Int → A) : Prop :=
  ∀ x, 0 ≤ x → x < w →
    buffer x = ∑ k ∈ points (y - radius) (y + radius), clampedRow src h stride k x

/-- Above the frame there is its first row. -/
theorem sum_above (hr : 0 ≤ radius) (hh : 0 < h) :
    ∑ k ∈ points (-radius) 0, clampedRow src h stride k x = radius * src x := by
  have hrow : ∀ k ∈ points (-radius) 0, clampedRow src h stride k x = src x := by
    intro k hk
    have hk' := mem_points.mp hk
    rw [clampedRow, clampi_eq _ (by omega), show max 0 (min k (h - 1)) = 0 by omega, Int.zero_mul,
      Int.zero_add]
  rw [Finset.sum_congr rfl hrow, Finset.sum_const, card_points, nsmul_eq_mul]
  congr 1
  have : ((0 - -radius).toNat : Int) = radius := by omega
  rw [← Int.cast_natCast, this]

theorem sliding_start (hl : 0 < lanes) (hr : 0 ≤ radius) (hh : 0 < h) :
    Sliding src radius w h stride 0 ((Int.range 0 radius).foldl
      (fun buffer y => addRow lanes buffer (fun x => src (min y (h - 1) * stride + x)) w)
      (scaleRow lanes buffer src (radius : A) w)) := by
  intro x hx hxw
  have key := Loops.foldl_range_induct
    (fun n (b : Int → A) => b x = ∑ k ∈ points (-radius) n, clampedRow src h stride k x)
    (fun buffer y => addRow lanes buffer (fun x => src (min y (h - 1) * stride + x)) w) hr
    (s := scaleRow lanes buffer src (radius : A) w)
    (by rw [scaleRow_at hl hx hxw, sum_above hr hh]) ?_
  · rw [key, Int.zero_sub, Int.zero_add]
  · intro n b hn hnr ih
    rw [addRow_at hl hx hxw, ih, sum_points_snoc _ (by omega), clampedRow, clampi_eq _ (by omega),
      show max 0 (min n (h - 1)) = min n (h - 1) by omega]

/-- A row comes in and one goes out. -/
theorem Sliding.slide (h0 : Sliding src radius w h stride y buffer) (hr : 0 ≤ radius) (hy : 0 ≤ y)
    (hyh : y < h) (hx : 0 ≤ x) (hxw : x < w) :
    buffer x + src (min (y + radius) (h - 1) * stride + x) =
        ∑ k ∈ points (y - radius) (y + radius + 1), clampedRow src h stride k x ∧
      buffer x + src (min (y + radius) (h - 1) * stride + x) -
          src (max (y - radius) 0 * stride + x) =
        ∑ k ∈ points (y + 1 - radius) (y + 1 + radius), clampedRow src h stride k x := by
  have hadd : src (min (y + radius) (h - 1) * stride + x) =
      clampedRow src h stride (y + radius) x := by
    rw [clampedRow, clampi_eq _ (by omega),
      show max 0 (min (y + radius) (h - 1)) = min (y + radius) (h - 1) by omega]
  have hsub : src (max (y - radius) 0 * stride + x) = clampedRow src h stride (y - radius) x := by
    rw [clampedRow, clampi_eq _ (by omega),
      show max 0 (min (y - radius) (h - 1)) = max (y - radius) 0 by omega]
  have hsum : buffer x + src (min (y + radius) (h - 1) * stride + x) =
      ∑ k ∈ points (y - radius) (y + radius + 1), clampedRow src h stride k x := by
    rw [h0 x hx hxw, hadd, sum_points_snoc _ (by omega)]
  refine ⟨hsum, ?_⟩
  rw [hsum, hsub, sum_points_cons _ (by omega), add_sub_cancel_left]
  congr 1
  ext k
  simp only [mem_points]
  omega

theorem verticalRange_key (hl : 0 < lanes) (hr : 0 ≤ radius) (hw : w ≤ stride) (hh : 0 < h)
    (h01 : 0 ≤ y1) (hy1 : y1 ≤ h) :
    ∀ y x, y0 ≤ y → 0 ≤ y → y < y1 → 0 ≤ x → x < w →
      (verticalRange lanes weigh dst src radius w h stride y0 y1 buffer).1
          ((y - y0) * stride + x) =
        weigh (∑ k ∈ points (y - radius) (y + radius + 1), clampedRow src h stride k x) := by
  have key := Loops.foldl_range_induct
    (fun n (s : (Int → A) × (Int → A)) => Sliding src radius w h stride n s.2 ∧
      ∀ y x, y0 ≤ y → 0 ≤ y → y < n → 0 ≤ x → x < w → s.1 ((y - y0) * stride + x) =
        weigh (∑ k ∈ points (y - radius) (y + radius + 1), clampedRow src h stride k x))
    (fun (s : (Int → A) × (Int → A)) y =>
      let add := fun x => src (min (y + radius) (h - 1) * stride + x)
      let sub := fun x => src (max (y - radius) 0 * stride + x)
      if y < y0 then (s.1, addSubRow lanes s.2 add sub w)
      else addWeightSubRow lanes weigh ((y - y0) * stride) s.1 s.2 add sub w) h01
    (s := (dst, (Int.range 0 radius).foldl
      (fun buffer y => addRow lanes buffer (fun x => src (min y (h - 1) * stride + x)) w)
      (scaleRow lanes buffer src (radius : A) w)))
    ⟨sliding_start hl hr hh, fun y x _ h0 h1 => by omega⟩ ?_
  · exact key.2
  · intro n s hn hn1 ⟨hslide, hat⟩
    have hnext : Sliding src radius w h stride (n + 1)
        (addSubRow lanes s.2 (fun x => src (min (n + radius) (h - 1) * stride + x))
          (fun x => src (max (n - radius) 0 * stride + x)) w) := by
      intro x hx hxw
      rw [addSubRow_at hl hx hxw]
      exact (hslide.slide hr hn (by omega) hx hxw).2
    by_cases hny : n < y0
    · simp only [if_pos hny]
      exact ⟨hnext, fun y x h0 h0' h1 hx hxw => by omega⟩
    · simp only [if_neg hny, addWeightSubRow]
      refine ⟨hnext, fun y x h0 h0' h1 hx hxw => ?_⟩
      rw [stripLoop_self hl, scalarLoop_apply]
      by_cases hyn : y = n
      · subst hyn
        rw [if_pos (by omega), add_sub_cancel_left, (hslide.slide hr hn (by omega) hx hxw).1]
      · rw [if_neg, hat y x h0 h0' (by omega) hx hxw]
        intro hin
        have hsame : (y - y0) * stride + x =
            (n - y0) * stride + ((y - y0) * stride + x - (n - y0) * stride) := by omega
        have := (pixel_inj hx (by omega) (by omega) (by omega) hsame).1
        omega

/-- The distances summed over the patch of a pixel, at coordinates clamped to the frame. -/
def patchSum (src : Int → A) (s w h stride y x : Int) : A :=
  ∑ i ∈ points (-s) (s + 1), ∑ j ∈ points (-s) (s + 1),
    src (clampi (y + i) 0 (h - 1) * stride + clampi (x + j) 0 (w - 1))

/-- Horizontal, then vertical: what `vertical_range` weighs is the patch sum. -/
theorem verticalRange_at (hl : 0 < lanes) (hs : 0 ≤ s) (hw : w ≤ stride) (h0 : 0 ≤ y0)
    (hy : y0 ≤ y) (hy1 : y < y1) (h1 : y1 ≤ h) (hx : 0 ≤ x) (hxw : x < w) :
    (verticalRange lanes weigh dst (horizontal lanes out src s w h stride) s w h stride y0 y1
        buffer).1 ((y - y0) * stride + x) = weigh (patchSum src s w h stride y x) := by
  rw [verticalRange_key hl hs hw (by omega) (by omega) h1 y x hy (by omega) hy1 hx hxw]
  congr 1
  rw [sum_points_around, patchSum]
  refine Finset.sum_congr rfl fun i _ => ?_
  have hrow := clampi_eq (y + i) (show 0 ≤ h - 1 by omega)
  rw [clampedRow, horizontal_at hl hs hw hx hxw (by omega) (by omega)]

/-- **The box filter is the patch sum.** For every radius, frame and range of rows, the value left
at a pixel is the weight of the sum, over the patch, of the distances at clamped coordinates;
which rows are asked for makes no difference. -/
theorem boxFilter_at [LinearOrder A] (exp : A → A) (weight : NlmWeight) (h2InvNorm : A) (hl : 0 < lanes)
    (hs : 0 ≤ s) (hw : w ≤ stride) (h0 : 0 ≤ y0) (hy : y0 ≤ y) (hy1 : y < y1) (h1 : y1 ≤ h)
    (hx : 0 ≤ x) (hxw : x < w) :
    (verticalWeightRange lanes exp dst (horizontal lanes out src s w h stride) s weight h2InvNorm
        w h stride y0 y1 buffer).1 ((y - y0) * stride + x) =
      weightOf exp weight (patchSum src s w h stride y x) (-h2InvNorm) :=
  verticalRange_at hl hs hw h0 hy hy1 h1 hx hxw

/-- The last row of a frame narrower than the patch. -/
theorem boxFilter_narrow :
    (verticalWeightRange 8 id (fun _ => 0) (horizontal 8 (fun _ => 0) (fun i => (i : ℚ)) 3 2 4 5)
        3 .welsch 1 2 4 5 3 4 (fun _ => 0)).1 ((3 - 3) * 5 + 1) =
      weightOf id .welsch (patchSum (fun i => (i : ℚ)) 3 2 4 5 3 1) (-1) :=
  boxFilter_at id .welsch 1 (by decide) (by decide) (by decide) (by decide) (by decide)
    (by decide) (by decide) (by decide) (by decide)

/-- What is left where all distances are zero is the weight one, not the sum. -/
theorem boxFilter_weighs :
    (verticalWeightRange 4 id (fun _ => 0) (horizontal 4 (fun _ => 0) (fun _ => (0 : ℚ)) 1 1 1 1)
        1 .bisquareA 1 1 1 1 0 1 (fun _ => 0)).1 0 = 1 ∧
      patchSum (fun _ => (0 : ℚ)) 1 1 1 1 0 0 = 0 := by
  constructor
  · have hat : (verticalRange 4 (fun sum => weightOf id .bisquareA sum (-1)) (fun _ => 0)
        (horizontal 4 (fun _ => 0) (fun _ => (0 : ℚ)) 1 1 1 1) 1 1 1 1 0 1 (fun _ => 0)).1
          ((0 - 0) * 1 + 0) =
        weightOf id .bisquareA (patchSum (fun _ => (0 : ℚ)) 1 1 1 1 0 0) (-1) :=
      verticalRange_at (by decide) (by decide) (by decide) (by decide) (by decide) (by decide)
        (by decide) (by decide) (by decide)
    simpa [verticalWeightRange, weightOf, patchSum] using hat
  · simp [patchSum]

end NssFactory.Nlm
