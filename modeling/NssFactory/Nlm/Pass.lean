import Mathlib.Algebra.BigOperators.Field
import Mathlib.Algebra.Order.BigOperators.Group.Finset
import Mathlib.Tactic.Linarith
import NssFactory.Frontend.Temporal
import NssFactory.Nlm.Stripes

/-!
# The pass of NLM over a frame

`NlmPass` of `host/filter_nlm.cpp`: for each stripe and each offset before the center, the patch
distances to the backward frame and, for a temporal pair, of the forward frame to the center;
their weights; the weighted sums; then the finish. Each stripe has rows of context, and clamps to
those rows where a whole frame clamps to the frame.

* `visit`: what an offset adds to the sums of a pixel, said on whole frames.
* `runOffset_visit`, `sums_at`: a stripe adds just that, whatever its rows and whatever its
  scratch held.
* `striping_invariant`: so the stripes make no difference.
* `visited_half`: an offset or its negation is visited, and only one of them.
* `finish_at`, `output_at`: the finished pixel, and `neighbours_once`: it is a convex combination
  of its neighbours, each counted once.
-/

namespace NssFactory.Nlm

variable {A : Type*}

/-! ## Frames -/

/-- The planes of a frame. Those that are filtered have rows of at least `w` floats. -/
structure Frame (A : Type*) (mode : ChannelMode) (w : Int) where
  planes : Planes A
  strides : Nat → Int
  wide : ∀ c < numChannels mode, w ≤ strides (firstPlane mode + c)

/-- The planes from row `row0` on. -/
def Frame.ptrsAt {mode : ChannelMode} {w : Int} (f : Frame A mode w) (row0 : Int) : Planes A :=
  fun c i => f.planes c (row0 * f.strides c + i)

/-- The UV mode's planes 1 and 2 as 0 and 1. -/
def compact {B : Type*} (mode : ChannelMode) (planes : Nat → B) : Nat → B :=
  if mode = .uv then fun c => planes (c + 1) else planes

/-- The source and reference frames around a frame, by slot: slot `d` is the frame itself. -/
structure NlmWindow (A : Type*) (mode : ChannelMode) (w : Int) where
  src : Int → Frame A mode w
  ref : Int → Frame A mode w
  stride : Int
  wide : w ≤ stride

/-- The planes filtered. -/
def nlmPlane (mode : ChannelMode) (c : Nat) : Nat := if mode = .uv then c + 1 else c

/-- The widest stride of slots and planes, and of `w`. -/
def widest (slots : List Int) (planes : List Nat) (src ref : Int → Nat → Int) (w : Int) : Int :=
  slots.foldl (fun stride t => planes.foldl
    (fun stride c => max (max stride (src t c)) (ref t c)) stride) w

theorem le_widest {slots : List Int} {planes : List Nat} {src ref : Int → Nat → Int} {w : Int} :
    w ≤ widest slots planes src ref w := by
  refine List.foldlRecOn slots (motive := fun stride => w ≤ stride) _ (Int.le_refl w)
    fun stride h t _ => List.foldlRecOn planes (motive := fun stride => w ≤ stride) _ h
      fun stride h c _ => ?_
  omega

/-- Frame `n` and the frames around it in a clip of `numFrames`; the clip is its own reference
where none is given. -/
def loadWindow {mode : ChannelMode} {w : Int} (d n numFrames : Int)
    (node : Int → Frame A mode w) (rclip : Option (Int → Frame A mode w)) : NlmWindow A mode w :=
  let refNode := rclip.getD node
  let src := fun t => node (temporalSlotFrame n t d numFrames)
  let ref := fun t => refNode (temporalSlotFrame n t d numFrames)
  { src, ref
    stride := widest (Int.range 0 (2 * d + 1)) (List.range (numChannels mode))
      (fun t c => (src t).strides (nlmPlane mode c)) (fun t c => (ref t).strides (nlmPlane mode c)) w
    wide := le_widest }

/-! ## The pass -/

/-- `epsilon` is where the maxima start; `lanes` and `exp` are the vector's. -/
structure NlmPass (A : Type*) [Field A] [LinearOrder A] where
  p : NlmParams
  w : Int
  h : Int
  window : NlmWindow A p.channels w
  weight : NlmWeight
  wref : A
  h2InvNorm : A
  epsilon : A
  exp : A → A
  lanes : Int
  halo : Int
  dstStrides : Nat → Int
  w_pos : 1 ≤ w
  h_pos : 1 ≤ h
  wref_pos : 0 < wref
  epsilon_pos : 0 < epsilon
  lanes_pos : 0 < lanes
  halo_eq : halo = p.a + p.s
  dst_wide : ∀ c < numChannels p.channels, w ≤ dstStrides (firstPlane p.channels + c)

/-- The arrays of a stripe, each as memory of its own. -/
structure Scratch (A : Type*) where
  sums : Int → Sums A
  savedBwd : Int → A
  temp : Int → A
  tempBwd : Int → A
  buffer : Int → A

section Mixed

variable [Field A] [LinearOrder A] (P : NlmPass A)

namespace NlmPass

abbrev mode : ChannelMode := P.p.channels

abbrev nc : Nat := numChannels P.mode

abbrev stride : Int := P.window.stride

/-- `has_mixed_strides`. -/
def mixedStrides : Bool :=
  ((Int.range 0 (2 * P.p.d + 1)).any fun t => (List.range P.nc).any fun c =>
    (P.window.src t).strides (nlmPlane P.mode c) ≠ P.window.stride ||
      (P.window.ref t).strides (nlmPlane P.mode c) ≠ P.window.stride) ||
  (List.range P.nc).any fun c => P.dstStrides (nlmPlane P.mode c) ≠ P.window.stride

end NlmPass

end Mixed

section Kernels

variable [Field A]

/-- A row of the fused luma kernel's distances. -/
def distanceLumaRow (lanes : Int) (dst : Int → A) (center neighbor : Planes A)
    (ox oy y w h stride : Int) : Int → A :=
  let startX := min (ox.natAbs : Int) w
  let endX := w - startX
  let neighborY := clampi (y + oy) 0 (h - 1)
  let dst := scalarLoop 0 (fun x _ => lumaScalar (center.at (y * stride + x))
    (neighbor.at (neighborY * stride + clampi (x + ox) 0 (w - 1)))) 0 startX dst
  let dst := stripLoop 0 lanes
    (fun _ x _ => lumaVector (center.at (y * stride + x)) (neighbor.at (neighborY * stride + x + ox)))
    (fun x _ => lumaScalar (center.at (y * stride + x)) (neighbor.at (neighborY * stride + x + ox)))
    startX endX dst
  scalarLoop 0 (fun x _ => lumaScalar (center.at (y * stride + x))
    (neighbor.at (neighborY * stride + clampi (x + ox) 0 (w - 1)))) (max startX endX) w dst

/-- `horizontal_fixed_row`: the interior starts where the left border ends. -/
def horizontalFixedRow (lanes s w : Int) (row : Int → A) (base : Int) (out : Int → A) : Int → A :=
  let left := min s w
  let innerEnd := w - s
  let out := scalarLoop base (fun x _ => edgeSum s w row x) 0 left out
  let out := stripLoop base lanes (fun _ x _ => fixedSum s row x) (fun x _ => innerSum s row x)
    left innerEnd out
  scalarLoop base (fun x _ => edgeSum s w row x) (max left innerEnd) w out

/-- Distances and their row sums, a row at a time through `rowScratch`. -/
def distanceLumaHorizontal (lanes : Int) (dst rowScratch : Int → A) (center neighbor : Planes A)
    (ox oy radius w h stride : Int) : (Int → A) × (Int → A) :=
  if radius < 0 ∨ w < 1 ∨ h < 1 ∨ stride < w then (dst, rowScratch)
  else
    (Int.range 0 h).foldl
      (fun (s : (Int → A) × (Int → A)) y =>
        let row := distanceLumaRow lanes s.2 center neighbor ox oy y w h stride
        (if radius = 1 ∨ radius = 2 ∨ radius = 3 ∨ radius = 4 then
            horizontalFixedRow lanes radius w row (y * stride) s.1
          else horizontalRow lanes radius w row (y * stride) s.1, row))
      (dst, rowScratch)

/-- The finished value of a channel. -/
def finishValue (wref : A) (s : Sums A) (c : Nat) (src : A) : A :=
  let mul := wref * s.maxWeight
  (mul * src + s.wdst c) / (mul + s.weight)

/-- The rows of one plane, `out` being where its first row starts. -/
def finishCh1 (lanes : Int) (wref : A) (dst : Int → A) (out : Int) (src : Int → A)
    (sums : Int → Sums A) (c : Nat) (w h stride : Int) : Int → A :=
  (Int.range 0 h).foldl
    (fun dst y =>
      let value := fun x => finishValue wref (sums (y * stride + x)) c (src (y * stride + x))
      stripLoop (out + y * stride) lanes (fun _ x _ => value x) (fun x _ => value x) 0 w dst)
    dst

/-- The rows of a plane with a stride of its own. -/
def finishStridedPlane (wref : A) (dst : Int → A) (out dstStride : Int) (src : Int → A)
    (srcStride : Int) (sums : Int → Sums A) (c : Nat) (w h mapStride : Int) : Int → A :=
  (Int.range 0 h).foldl
    (fun dst y => scalarLoop (out + y * dstStride)
      (fun x _ => finishValue wref (sums (y * mapStride + x)) c (src (y * srcStride + x))) 0 w dst)
    dst

/-- The rows of planes with strides of their own, `plane c` being channel `c`'s. The planes are
apart: the source goes through the channels of each pixel, here it is one after the other. -/
def finishStrided (wref : A) (plane : Nat → Nat) (dst : Planes A) (out dstStrides : Nat → Int)
    (src : Planes A) (srcStrides : Nat → Int) (sums : Int → Sums A) (nch : Nat)
    (w h mapStride : Int) : Planes A :=
  if w < 1 ∨ h < 1 ∨ mapStride < w then dst
  else
    let nch := max 1 (min 3 nch)
    if (List.range nch).any fun c => dstStrides c < w || srcStrides c < w then dst
    else
      (List.range nch).foldl
        (fun dst c => Function.update dst (plane c)
          (finishStridedPlane wref (dst (plane c)) (out c) (dstStrides c) (src c) (srcStrides c) sums
            c w h mapStride))
        dst

end Kernels

namespace NlmPass

variable [Field A] [LinearOrder A] (P : NlmPass A)

def weigh (sum : A) : A := weightOf P.exp P.weight sum (-P.h2InvNorm)

/-- Distances into `temp_bwd`. -/
def distance (s : Stripe) (out : Int → A) (c : Planes A) (cs : Nat → Int) (nb : Planes A)
    (ns : Nat → Int) (ox oy : Int) : Int → A :=
  if P.mixedStrides then
    distanceStrided P.mode out c cs nb ns ox oy P.w s.extH P.stride
  else distanceFast P.mode P.lanes out c nb ox oy P.w s.extH P.stride

def distanceHorizontal (s : Stripe) (c : Planes A) (cs : Nat → Int) (nb : Planes A)
    (ns : Nat → Int) (ox oy : Int) (m : Scratch A) : Scratch A :=
  if !P.mixedStrides && P.mode = .y then
    let r := distanceLumaHorizontal P.lanes m.temp m.tempBwd c nb ox oy P.p.s P.w s.extH P.stride
    { m with temp := r.1, tempBwd := r.2 }
  else
    let tempBwd := P.distance s m.tempBwd c cs nb ns ox oy
    { m with tempBwd
             temp := horizontal P.lanes m.temp tempBwd P.p.s P.w s.extH P.stride }

/-- The weights of the rows `[y0, y1)` from the row sums in `temp`, with the buffer. -/
def verticalWeight (s : Stripe) (dst : Int → A) (y0 y1 : Int) (m : Scratch A) :
    (Int → A) × (Int → A) :=
  verticalWeightRange P.lanes P.exp dst m.temp P.p.s P.weight P.h2InvNorm P.w s.extH P.stride y0 y1
    m.buffer

/-- An offset within the center frame: one map serves both sides. -/
def accumulateCenter (s : Stripe) (src : Planes A) (srcSt : Nat → Int) (ox oy : Int)
    (m : Scratch A) : Scratch A :=
  let coreEnd := s.coreLocal + s.coreHeight
  if P.mixedStrides then
    let r := P.verticalWeight s m.tempBwd 0 s.extH m
    let cs := compact P.mode src
    let css := compact P.mode srcSt
    { m with
      tempBwd := r.1
      buffer := r.2
      sums := accumStrided P.nc cs css cs css r.1 r.1 ox oy P.w s.extH P.stride s.coreLocal coreEnd
        0 m.sums }
  else
    let baseY := (s.centerRows oy).1
    let r := P.verticalWeight s m.tempBwd baseY (s.centerRows oy).2 m
    let channels := fun c => src (nlmPlane P.mode c)
    let args : AccumArgs A :=
      { nch := P.nc, bwd := channels, fwd := channels, temp1 := r.1, temp2 := r.1, ox, oy, w := P.w
        h := s.extH, stride := P.stride, temp1BaseY := baseY, temp2BaseY := baseY }
    { m with
      tempBwd := r.1
      buffer := r.2
      sums := args.accumInner P.lanes s.coreLocal coreEnd m.sums }

/-- The core rows of the backward map, kept. -/
def saveRows (s : Stripe) (savedBwd tempBwd : Int → A) : Int → A :=
  (Int.range 0 s.coreHeight).foldl
    (fun saved yy => scalarLoop (yy * P.stride)
      (fun x _ => tempBwd ((s.coreLocal + yy) * P.stride + x)) 0 P.stride saved)
    savedBwd

/-- A temporal pair: the backward map is kept while the forward one is made. -/
def accumulatePair (s : Stripe) (ref : Planes A) (refSt : Nat → Int) (refFwd : Planes A)
    (refFwdSt : Nat → Int) (srcBwd : Planes A) (srcBwdSt : Nat → Int) (srcFwd : Planes A)
    (srcFwdSt : Nat → Int) (ox oy : Int) (m : Scratch A) : Scratch A :=
  let coreEnd := s.coreLocal + s.coreHeight
  let m :=
    if P.mixedStrides then
      let r := P.verticalWeight s m.tempBwd 0 s.extH m
      { m with tempBwd := r.1, buffer := r.2, savedBwd := P.saveRows s m.savedBwd r.1 }
    else
      let r := P.verticalWeight s m.savedBwd s.coreLocal coreEnd m
      { m with savedBwd := r.1, buffer := r.2 }
  let m := P.distanceHorizontal s refFwd refFwdSt ref refSt ox oy m
  if P.mixedStrides then
    let r := P.verticalWeight s m.tempBwd 0 s.extH m
    { m with
      tempBwd := r.1
      buffer := r.2
      sums := accumStrided P.nc (compact P.mode srcBwd) (compact P.mode srcBwdSt)
        (compact P.mode srcFwd) (compact P.mode srcFwdSt) m.savedBwd r.1 ox oy P.w s.extH P.stride
        s.coreLocal coreEnd s.coreLocal m.sums }
  else
    let baseY := (s.pairRows oy).1
    let r := P.verticalWeight s m.tempBwd baseY (s.pairRows oy).2 m
    let args : AccumArgs A :=
      { nch := P.nc, bwd := fun c => srcBwd (nlmPlane P.mode c)
        fwd := fun c => srcFwd (nlmPlane P.mode c), temp1 := m.savedBwd, temp2 := r.1, ox, oy
        w := P.w, h := s.extH, stride := P.stride, temp1BaseY := s.coreLocal, temp2BaseY := baseY }
    { m with
      tempBwd := r.1
      buffer := r.2
      sums := args.accumInner P.lanes s.coreLocal coreEnd m.sums }

/-- The work for offset `(i, oy, ox)`. -/
def runOffset (s : Stripe) (m : Scratch A) (o : Int × Int × Int) : Scratch A :=
  let i := o.1
  let oy := o.2.1
  let ox := o.2.2
  let ref := P.window.ref P.p.d
  let bwd := P.p.d + i
  let fwd := P.p.d - i
  let m := P.distanceHorizontal s (ref.ptrsAt s.ext0) ref.strides
    ((P.window.ref bwd).ptrsAt s.ext0) (P.window.ref bwd).strides ox oy m
  if i = 0 then
    P.accumulateCenter s ((P.window.src bwd).ptrsAt s.ext0) (P.window.src bwd).strides ox oy m
  else
    P.accumulatePair s (ref.ptrsAt s.ext0) ref.strides ((P.window.ref fwd).ptrsAt s.ext0)
      (P.window.ref fwd).strides ((P.window.src bwd).ptrsAt s.ext0) (P.window.src bwd).strides
      ((P.window.src fwd).ptrsAt s.ext0) (P.window.src fwd).strides ox oy m

/-- The sums before the first offset. -/
def initSums : Int → Sums A := fun _ => ⟨0, P.epsilon, fun _ => 0⟩

/-- The stripe's sums, as the finish gets them. -/
def sumsOf (core0 core1 : Int) (m : Scratch A) : Scratch A :=
  (visited P.p.d P.p.a).foldl (P.runOffset (stripe P.halo P.h core0 core1))
    { m with sums := P.initSums }

def finish (s : Stripe) (sums : Int → Sums A) (dst : Planes A) : Planes A :=
  let srcCenter := P.window.src P.p.d
  let src : Planes A := fun c i =>
    srcCenter.ptrsAt s.ext0 c (s.coreLocal * srcCenter.strides c + i)
  let out := fun c => s.core0 * P.dstStrides c
  if P.mixedStrides then
    finishStrided P.wref (nlmPlane P.mode) dst (compact P.mode out) (compact P.mode P.dstStrides)
      (compact P.mode src) (compact P.mode srcCenter.strides) sums P.nc P.w s.coreHeight P.stride
  else
    (List.range P.nc).foldl
      (fun dst c => Function.update dst (nlmPlane P.mode c)
        (finishCh1 P.lanes P.wref (dst (nlmPlane P.mode c)) (out (nlmPlane P.mode c))
          (src (nlmPlane P.mode c)) sums c P.w s.coreHeight P.stride))
      dst

def run (core0 core1 : Int) (m : Scratch A) (dst : Planes A) : Scratch A × Planes A :=
  let m := P.sumsOf core0 core1 m
  (m, P.finish (stripe P.halo P.h core0 core1) m.sums dst)

/-- The stripes of the frame, one after the other in the same scratch. -/
def runAll (coreRows : Int) (m : Scratch A) (dst : Planes A) : Scratch A × Planes A :=
  (stripesFrom coreRows P.h 0).foldl (fun s core => P.run core.1 core.2 s.1 s.2) (m, dst)

end NlmPass

/-! ## The distances of a stripe -/

theorem nlmPlane_eq (mode : ChannelMode) (c : Nat) : nlmPlane mode c = firstPlane mode + c := by
  unfold nlmPlane firstPlane
  split <;> omega

theorem compact_eq {B : Type*} (mode : ChannelMode) (planes : Nat → B) (c : Nat) :
    compact mode planes c = planes (nlmPlane mode c) := by
  unfold compact nlmPlane
  split <;> rfl

/-- Pixel `(y, x)` of a frame. -/
def Frame.pixel {mode : ChannelMode} {w : Int} (f : Frame A mode w) (y x : Int) : Pixel A :=
  f.planes.pixel f.strides y x

theorem Frame.compact_wide {mode : ChannelMode} {w : Int} (f : Frame A mode w) :
    ∀ c < numChannels mode, w ≤ compact mode f.strides c := by
  intro c hc
  rw [compact_eq, nlmPlane_eq]
  exact f.wide c hc

/-- Its filtered channels. -/
def Frame.channels {mode : ChannelMode} {w : Int} (f : Frame A mode w) (y x : Int) : Pixel A :=
  fun c => f.pixel y x (nlmPlane mode c)

/-- A frame whose filtered planes have one stride. -/
def Frame.Uniform {mode : ChannelMode} {w : Int} (f : Frame A mode w) (stride : Int) : Prop :=
  ∀ c < numChannels mode, f.strides (firstPlane mode + c) = stride

theorem Frame.ptrsAt_pixel {mode : ChannelMode} {w : Int} (f : Frame A mode w) (row0 y x : Int) :
    (f.ptrsAt row0).pixel f.strides y x = f.pixel (row0 + y) x := by
  funext c
  simp only [Planes.pixel, Frame.pixel, Frame.ptrsAt, Int.add_mul, Int.add_assoc]

theorem Frame.Uniform.ptrsAt {mode : ChannelMode} {w stride : Int} {f : Frame A mode w}
    (hf : f.Uniform stride) (row0 y x : Int) {c : Nat} (hc : c < numChannels mode) :
    (f.ptrsAt row0).at (y * stride + x) (firstPlane mode + c) =
      f.pixel (row0 + y) x (firstPlane mode + c) := by
  simp only [Planes.at, Planes.pixel, Frame.pixel, Frame.ptrsAt, hf c hc, Int.add_mul,
    Int.add_assoc]

section Distances

variable [Field A]

/-- Distances look at the filtered planes only. -/
theorem stridedDistance_congr (mode : ChannelMode) {c c' n n' : Pixel A}
    (hc : ∀ k < numChannels mode, c (firstPlane mode + k) = c' (firstPlane mode + k))
    (hn : ∀ k < numChannels mode, n (firstPlane mode + k) = n' (firstPlane mode + k)) :
    stridedDistance mode c n = stridedDistance mode c' n' := by
  have h0 := fun h => hc 0 h
  have h1 := fun h => hc 1 h
  have h2 := fun h => hc 2 h
  have h0' := fun h => hn 0 h
  have h1' := fun h => hn 1 h
  have h2' := fun h => hn 2 h
  cases mode <;>
    simp [stridedDistance_eq, lumaScalar, chromaScalar, yuvScalar, rgbScalar, numChannels,
      firstPlane] at h0 h1 h2 h0' h1' h2' ⊢ <;> simp [*]

variable {lanes s w h stride ox oy y x : Int} {center neighbor : Planes A} {out row dst : Int → A}

theorem distanceLumaRow_eq (hl : 0 < lanes) (hw : 0 ≤ w) :
    distanceLumaRow lanes dst center neighbor ox oy y w h stride =
      scalarLoop 0 (fun x _ => lumaScalar (center.at (y * stride + x))
        (neighbor.at (clampi (y + oy) 0 (h - 1) * stride + clampi (x + ox) 0 (w - 1)))) 0 w dst := by
  simp only [distanceLumaRow]
  rw [stripLoop_eq
      (g := fun x _ => lumaScalar (center.at (y * stride + x))
        (neighbor.at (clampi (y + oy) 0 (h - 1) * stride + x + ox))) hl
      fun _ _ _ _ _ _ => lumaVector_eq _ _,
    scalarLoop_congr
      (f := fun x _ => lumaScalar (center.at (y * stride + x))
        (neighbor.at (clampi (y + oy) 0 (h - 1) * stride + x + ox)))
      (g := fun x _ => lumaScalar (center.at (y * stride + x))
        (neighbor.at (clampi (y + oy) 0 (h - 1) * stride + clampi (x + ox) 0 (w - 1))))
      fun x hx hxw => by
        rw [show clampi (x + ox) 0 (w - 1) = x + ox from clampi_of_mem (by omega) (by omega),
          Int.add_assoc]]
  -- every column is in exactly one of the three parts
  funext i
  rw [scalarLoop_apply, scalarLoop_apply, scalarLoop_apply, scalarLoop_apply]
  split_ifs <;> first | rfl | omega

theorem horizontalFixedRow_eq (hl : 0 < lanes) (hs : s = 1 ∨ s = 2 ∨ s = 3 ∨ s = 4) :
    horizontalFixedRow lanes s w row y out =
      scalarLoop y (fun x _ => edgeSum s w row x) 0 w out := by
  simp only [horizontalFixedRow]
  rw [stripLoop_eq (g := fun x _ => innerSum s row x) hl fun _ _ _ _ _ _ => fixedSum_eq hs,
    scalarLoop_congr (f := fun x _ => innerSum s row x) (g := fun x _ => edgeSum s w row x)
      fun x hx hxw => innerSum_eq (by omega) hxw]
  funext i
  rw [scalarLoop_apply, scalarLoop_apply, scalarLoop_apply, scalarLoop_apply]
  split_ifs <;> first | rfl | omega

/-- A row sum looks at the columns of the frame only. -/
theorem edgeSum_congr {row row' : Int → A} (hw : 1 ≤ w)
    (h : ∀ x, 0 ≤ x → x < w → row x = row' x) : edgeSum s w row x = edgeSum s w row' x := by
  refine List.foldl_ext _ _ _ fun sum j _ => ?_
  have := clampi_eq (x + j) (show 0 ≤ w - 1 by omega)
  rw [h _ (by omega) (by omega)]

/-- A loop whose first part goes its own way. -/
theorem foldl_fst {α β γ : Type*} {f : α × β → γ → α × β} {g : α → γ → α} {l : List γ}
    (h : ∀ a b c, c ∈ l → (f (a, b) c).1 = g a c) (a : α) (b : β) :
    (l.foldl f (a, b)).1 = l.foldl g a := by
  induction l generalizing a b with
  | nil => rfl
  | cons c l ih =>
    have hc := h a b c List.mem_cons_self
    rw [List.foldl_cons, List.foldl_cons, ← hc]
    exact ih (fun a b c' hc' => h a b c' (List.mem_cons_of_mem _ hc')) _ _

/-- The fused kernel leaves the row sums of the distances. -/
theorem distanceLumaHorizontal_at (hl : 0 < lanes) (hs : 0 ≤ s) (hw : 1 ≤ w) (hws : w ≤ stride)
    (hy : 0 ≤ y) (hyh : y < h) (hx : 0 ≤ x) (hxw : x < w) :
    (distanceLumaHorizontal lanes out dst center neighbor ox oy s w h stride).1 (y * stride + x) =
      ∑ j ∈ points (-s) (s + 1), lumaScalar (center.at (y * stride + clampi (x + j) 0 (w - 1)))
        (neighbor.at (clampi (y + oy) 0 (h - 1) * stride +
          clampi (clampi (x + j) 0 (w - 1) + ox) 0 (w - 1))) := by
  let D : Int → Int → A := fun y x => lumaScalar (center.at (y * stride + x))
    (neighbor.at (clampi (y + oy) 0 (h - 1) * stride + clampi (x + ox) 0 (w - 1)))
  have hrow : ∀ y' rowScratch x', 0 ≤ x' → x' < w →
      distanceLumaRow lanes rowScratch center neighbor ox oy y' w h stride x' = D y' x' := by
    intro y' rowScratch x' hx' hxw'
    rw [distanceLumaRow_eq hl (by omega), scalarLoop_apply, if_pos (by omega), Int.sub_zero]
  have hfold : (distanceLumaHorizontal lanes out dst center neighbor ox oy s w h stride).1 =
      rowsLoop (fun y x _ => edgeSum s w (D y) x) w stride 0 0 h out := by
    rw [distanceLumaHorizontal, if_neg (by omega)]
    refine foldl_fst (fun a b y' _ => ?_) _ _
    have hedge : (fun x _ => edgeSum s w
        (distanceLumaRow lanes b center neighbor ox oy y' w h stride) x) =
        fun x (_ : A) => edgeSum s w (D y') x := by
      funext x' _
      exact edgeSum_congr hw (hrow y' b)
    simp only
    split
    · rw [horizontalFixedRow_eq hl ‹_›, hedge, Int.sub_zero]
    · rw [horizontalRow_eq hl hs (by omega), hedge, Int.sub_zero]
  rw [hfold, rowsLoop_zero_at hws hy hyh hx hxw, edgeSum_eq_sum]

end Distances

/-! ## The maps of a stripe -/

namespace NlmPass

variable [Field A] [LinearOrder A] {P : NlmPass A} {core0 core1 ox oy y x y0 y1 : Int}
variable {s : Stripe} {m : Scratch A} {c nb : Frame A P.mode P.w} {dst : Int → A}

/-- The distance of pixel `(y, x)` and its neighbour, on whole frames. -/
def frameDistance (P : NlmPass A) (c nb : Frame A P.mode P.w) (ox oy y x : Int) : A :=
  stridedDistance P.mode (c.pixel y x)
    (nb.pixel (clampi (y + oy) 0 (P.h - 1)) (clampi (x + ox) 0 (P.w - 1)))

/-- The same clamped to the rows of a stripe. -/
def stripeDistance (P : NlmPass A) (s : Stripe) (c nb : Frame A P.mode P.w) (ox oy y x : Int) : A :=
  stridedDistance P.mode (c.pixel (s.ext0 + y) x)
    (nb.pixel (s.ext0 + clampi (y + oy) 0 (s.extH - 1)) (clampi (x + ox) 0 (P.w - 1)))

/-- Where strides are not mixed, the frame has the pass's. -/
def Strided (P : NlmPass A) (f : Frame A P.mode P.w) : Prop :=
  P.mixedStrides = false → f.Uniform P.stride

theorem w_le_stride (P : NlmPass A) : P.w ≤ P.stride := P.window.wide

/-- The distances that are written. -/
theorem distance_at (hc : P.Strided c) (hnb : P.Strided nb) (hext : 0 < s.extH) (hy : 0 ≤ y)
    (hyh : y < s.extH) (hx : 0 ≤ x) (hxw : x < P.w) :
    P.distance s dst (c.ptrsAt s.ext0) c.strides (nb.ptrsAt s.ext0) nb.strides ox oy
      (y * P.stride + x) = P.stripeDistance s c nb ox oy y x := by
  have hat : ∀ F, rowsLoop F P.w P.stride 0 0 s.extH dst (y * P.stride + x) =
      F y x (dst (y * P.stride + x)) := fun F => rowsLoop_zero_at P.w_le_stride hy hyh hx hxw
  unfold distance
  split
  · rw [distanceStrided_eq P.mode P.w_pos (by omega) P.w_le_stride c.wide nb.wide, hat,
      Frame.ptrsAt_pixel, Frame.ptrsAt_pixel]
    rfl
  · rename_i hmixed
    have hmixed' : P.mixedStrides = false := by simpa using hmixed
    have hw := P.w_pos
    rw [distanceFast_eq P.mode P.lanes_pos (by omega), hat]
    exact stridedDistance_congr P.mode (fun k hk => (hc hmixed').ptrsAt _ _ _ hk)
      fun k hk => (hnb hmixed').ptrsAt _ _ _ hk

/-- The row sums of a stripe. -/
def RowSums (P : NlmPass A) (s : Stripe) (c nb : Frame A P.mode P.w) (ox oy : Int)
    (temp : Int → A) : Prop :=
  ∀ y x, 0 ≤ y → y < s.extH → 0 ≤ x → x < P.w → temp (y * P.stride + x) =
    ∑ j ∈ points (-P.p.s) (P.p.s + 1),
      P.stripeDistance s c nb ox oy y (clampi (x + j) 0 (P.w - 1))

theorem distanceHorizontal_rowSums (hc : P.Strided c) (hnb : P.Strided nb) (hext : 0 < s.extH) :
    P.RowSums s c nb ox oy (P.distanceHorizontal s (c.ptrsAt s.ext0) c.strides (nb.ptrsAt s.ext0)
      nb.strides ox oy m).temp := by
  intro y x hy hyh hx hxw
  have hw := P.w_pos
  have hcol : ∀ j, 0 ≤ clampi (x + j) 0 (P.w - 1) ∧ clampi (x + j) 0 (P.w - 1) < P.w := fun j => by
    rw [clampi_eq _ (by omega)]
    omega
  unfold distanceHorizontal
  split
  · rename_i hluma
    simp only [Bool.and_eq_true, Bool.not_eq_true', decide_eq_true_eq] at hluma
    obtain ⟨hmixed, hmode⟩ := hluma
    refine (distanceLumaHorizontal_at P.lanes_pos P.p.s_nonneg hw P.w_le_stride hy hyh hx
      hxw).trans (Finset.sum_congr rfl fun j _ => ?_)
    have hluma : ∀ a b : Pixel A, lumaScalar a b = stridedDistance P.mode a b := fun a b => by
      rw [hmode]
      rfl
    rw [hluma]
    exact stridedDistance_congr P.mode (fun k hk => (hc hmixed).ptrsAt _ _ _ hk)
      fun k hk => (hnb hmixed).ptrsAt _ _ _ hk
  · exact (horizontal_at P.lanes_pos P.p.s_nonneg P.w_le_stride hx hxw hy hyh).trans
      (Finset.sum_congr rfl fun j _ => distance_at hc hnb hext hy hyh (hcol j).1 (hcol j).2)

@[simp] theorem distanceHorizontal_sums {c nb : Planes A} {cs ns : Nat → Int} :
    (P.distanceHorizontal s c cs nb ns ox oy m).sums = m.sums := by
  unfold distanceHorizontal
  split <;> rfl

@[simp] theorem distanceHorizontal_savedBwd {c nb : Planes A} {cs ns : Nat → Int} :
    (P.distanceHorizontal s c cs nb ns ox oy m).savedBwd = m.savedBwd := by
  unfold distanceHorizontal
  split <;> rfl

/-! ### Weights -/

/-- The weight of a pixel's patch, on whole frames. -/
def patchWeight (P : NlmPass A) (c nb : Frame A P.mode P.w) (ox oy y x : Int) : A :=
  P.weigh (∑ i ∈ points (-P.p.s) (P.p.s + 1), ∑ j ∈ points (-P.p.s) (P.p.s + 1),
    P.frameDistance c nb ox oy (clampi (y + i) 0 (P.h - 1)) (clampi (x + j) 0 (P.w - 1)))

/-- The rows a weight at row `y` is made of lie in the halo of the core rows. -/
def Covered (P : NlmPass A) (core0 core1 oy y : Int) : Prop :=
  ∀ i, -P.p.s ≤ i → i ≤ P.p.s →
    (core0 - P.halo ≤ y + i ∧ y + i ≤ core1 - 1 + P.halo) ∧
    (core0 - P.halo ≤ clampi (y + i) 0 (P.h - 1) + oy ∧
      clampi (y + i) 0 (P.h - 1) + oy ≤ core1 - 1 + P.halo)

variable (hs : s.Within P.halo P.h core0 core1)

include hs

/-- A distance row of the stripe is the frame's. -/
theorem stripeDistance_eq {i : Int} (hcov : P.Covered core0 core1 oy y) (h0 : -P.p.s ≤ i)
    (h1 : i ≤ P.p.s) :
    P.stripeDistance s c nb ox oy (clampi (y - s.ext0 + i) 0 (s.extH - 1)) x =
      P.frameDistance c nb ox oy (clampi (y + i) 0 (P.h - 1)) x := by
  obtain ⟨⟨hrow0, hrow1⟩, hnb0, hnb1⟩ := hcov i h0 h1
  have hrow := hs.clampi_local hrow0 hrow1
  have hnb := hs.clampi_local hnb0 hnb1
  rw [show y - s.ext0 + i = y + i - s.ext0 by omega, hrow, stripeDistance, frameDistance,
    show s.ext0 + (clampi (y + i) 0 (P.h - 1) - s.ext0) = clampi (y + i) 0 (P.h - 1) by omega,
    show clampi (y + i) 0 (P.h - 1) - s.ext0 + oy = clampi (y + i) 0 (P.h - 1) + oy - s.ext0
      by omega, hnb, show ∀ r, s.ext0 + (r - s.ext0) = r by omega]

/-- The weights written are those of the frame, where the halo covers what they are made of. -/
theorem verticalWeight_at (htemp : P.RowSums s c nb ox oy m.temp)
    (hcov : P.Covered core0 core1 oy y) (h0 : 0 ≤ y0) (hy : y0 ≤ y - s.ext0)
    (hy1 : y - s.ext0 < y1) (h1 : y1 ≤ s.extH) (hx : 0 ≤ x) (hxw : x < P.w) :
    (P.verticalWeight s dst y0 y1 m).1 ((y - s.ext0 - y0) * P.stride + x) =
      P.patchWeight c nb ox oy y x := by
  have hext : 0 < s.extH := by omega
  change (verticalRange P.lanes P.weigh dst m.temp P.p.s P.w s.extH P.stride y0 y1 m.buffer).1 _ = _
  rw [verticalRange_key P.lanes_pos P.p.s_nonneg P.w_le_stride hext (by omega) h1 _ x hy
    (by omega) hy1 hx hxw, sum_points_around, patchWeight]
  congr 1
  refine Finset.sum_congr rfl fun i hi => ?_
  have hi' := mem_points.mp hi
  have hrow := clampi_eq (y - s.ext0 + i) (show 0 ≤ s.extH - 1 by omega)
  rw [clampedRow, htemp _ x (by omega) (by omega) hx hxw]
  exact Finset.sum_congr rfl fun j _ => stripeDistance_eq hs hcov hi'.1 (by omega)

/-! ## What an offset adds -/

omit hs

/-- What offset `(i, oy, ox)` adds to the sums of pixel `(y, x)`, on whole frames. -/
def visit (P : NlmPass A) (o : Int × Int × Int) (y x : Int) (sums : Sums A) : Sums A :=
  let i := o.1
  let oy := o.2.1
  let ox := o.2.2
  let yPq := clampi (y + oy) 0 (P.h - 1)
  let xPq := clampi (x + ox) 0 (P.w - 1)
  let yMq := clampi (y - oy) 0 (P.h - 1)
  let xMq := clampi (x - ox) 0 (P.w - 1)
  let ref := P.window.ref P.p.d
  sums.add P.nc (P.patchWeight ref (P.window.ref (P.p.d + i)) ox oy y x)
    (P.patchWeight (P.window.ref (P.p.d - i)) ref ox oy yMq xMq)
    ((P.window.src (P.p.d + i)).channels yPq xPq) ((P.window.src (P.p.d - i)).channels yMq xMq)

/-- Only the channels there are count. -/
theorem sumsAdd_congr {nch : Nat} {sums : Sums A} {u um : A} {b b' f f' : Pixel A}
    (hb : ∀ c < nch, b c = b' c) (hf : ∀ c < nch, f c = f' c) :
    sums.add nch u um b f = sums.add nch u um b' f' := by
  simp only [Sums.add, Sums.mk.injEq, true_and]
  funext c
  by_cases hc : c < nch
  · rw [if_pos hc, if_pos hc, hb c hc, hf c hc]
  · rw [if_neg hc, if_neg hc]

theorem nc_pos (P : NlmPass A) : 1 ≤ P.nc := numChannels_pos P.mode

theorem nc_le (P : NlmPass A) : P.nc ≤ 3 := numChannels_le P.mode

/-- A pixel of the core rows. -/
structure InCore (P : NlmPass A) (core0 core1 y x : Int) : Prop where
  row0 : core0 ≤ y
  row1 : y < core1
  col0 : 0 ≤ x
  col1 : x < P.w

/-- The halo covers the patches of the core rows. -/
theorem covered_core (hpix : P.InCore core0 core1 y x) (h0 : 0 ≤ core0) (h1 : core1 ≤ P.h)
    (hoy : -P.p.a ≤ oy ∧ oy ≤ P.p.a) : P.Covered core0 core1 oy y := by
  obtain ⟨hy, hy1, -, -⟩ := hpix
  intro i hi hi'
  rw [clampi_eq _ (by omega), P.halo_eq]
  omega

/-- And those of their mirror rows. -/
theorem covered_mirror (hpix : P.InCore core0 core1 y x) (h0 : 0 ≤ core0) (h1 : core1 ≤ P.h)
    (hoy : -P.p.a ≤ oy ∧ oy ≤ P.p.a) :
    P.Covered core0 core1 oy (clampi (y - oy) 0 (P.h - 1)) := by
  obtain ⟨hy, hy1, -, -⟩ := hpix
  intro i hi hi'
  have hclamp : ∀ r, clampi r 0 (P.h - 1) = max 0 (min r (P.h - 1)) := fun r =>
    clampi_eq r (by omega)
  simp only [hclamp, P.halo_eq]
  omega

section Accumulate

variable {srcBwd srcFwd : Frame A P.mode P.w} {temp1 temp2 : Int → A} {base1 base2 : Int}
variable {sums : Int → Sums A} (hpix : P.InCore core0 core1 y x)
variable (hoy : -P.p.a ≤ oy ∧ oy ≤ P.p.a)

include hs hpix hoy

/-- The rows of the neighbours are those of the frame. -/
theorem neighbour_rows :
    clampi (y - s.ext0 - oy) 0 (s.extH - 1) = clampi (y - oy) 0 (P.h - 1) - s.ext0 ∧
      clampi (y - s.ext0 + oy) 0 (s.extH - 1) = clampi (y + oy) 0 (P.h - 1) - s.ext0 := by
  obtain ⟨hy, hy1, -, -⟩ := hpix
  have hhalo := P.halo_eq
  have hradius := P.p.s_nonneg
  constructor
  · rw [show y - s.ext0 - oy = y - oy - s.ext0 by omega]
    exact hs.clampi_local (by omega) (by omega)
  · rw [show y - s.ext0 + oy = y + oy - s.ext0 by omega]
    exact hs.clampi_local (by omega) (by omega)

theorem accumStrided_at (hbase : 0 ≤ base1) (hbase' : base1 ≤ s.coreLocal) :
    accumStrided P.nc (compact P.mode (srcBwd.ptrsAt s.ext0)) (compact P.mode srcBwd.strides)
        (compact P.mode (srcFwd.ptrsAt s.ext0)) (compact P.mode srcFwd.strides) temp1 temp2 ox oy
        P.w s.extH P.stride s.coreLocal (s.coreLocal + s.coreHeight) base1 sums
        ((y - core0) * P.stride + x) =
      (sums ((y - core0) * P.stride + x)).add P.nc (temp1 ((y - s.ext0 - base1) * P.stride + x))
        (temp2 ((clampi (y - oy) 0 (P.h - 1) - s.ext0) * P.stride + clampi (x - ox) 0 (P.w - 1)))
        (srcBwd.channels (clampi (y + oy) 0 (P.h - 1)) (clampi (x + ox) 0 (P.w - 1)))
        (srcFwd.channels (clampi (y - oy) 0 (P.h - 1)) (clampi (x - ox) 0 (P.w - 1))) := by
  have hchannels : ∀ (f : Frame A P.mode P.w) (r x : Int),
      Planes.pixel (compact P.mode (f.ptrsAt s.ext0)) (compact P.mode f.strides) (r - s.ext0) x =
        f.channels r x := by
    intro f r x
    funext c
    simp only [Planes.pixel, compact_eq, Frame.channels]
    have := congrFun (f.ptrsAt_pixel s.ext0 (r - s.ext0) x) (nlmPlane P.mode c)
    rwa [show s.ext0 + (r - s.ext0) = r by omega] at this
  obtain ⟨hmq, hpq⟩ := neighbour_rows hs hpix hoy
  obtain ⟨hy, hy1, hx, hxw⟩ := hpix
  have hcore := hs.core0_eq
  have hheight := hs.height_eq
  have hlocal := hs.local_nonneg
  have hle := hs.core_le
  rw [accumStrided_eq P.w_pos P.w_le_stride srcBwd.compact_wide srcFwd.compact_wide hlocal (by omega)
      hle hbase hbase' P.nc_pos P.nc_le,
    show y - core0 = y - s.ext0 - s.coreLocal by omega,
    rowsLoop_at P.w_le_stride (by omega) (by omega) hx hxw, hmq, hpq, hchannels, hchannels]

theorem accumInner_at (hmixed : P.mixedStrides = false) (hb : P.Strided srcBwd)
    (hf : P.Strided srcFwd) (hmax : ∀ i, 0 ≤ (sums i).maxWeight) :
    AccumArgs.accumInner
        { nch := P.nc, bwd := fun c => srcBwd.ptrsAt s.ext0 (nlmPlane P.mode c)
          fwd := fun c => srcFwd.ptrsAt s.ext0 (nlmPlane P.mode c), temp1 := temp1, temp2 := temp2
          ox := ox, oy := oy, w := P.w, h := s.extH, stride := P.stride, temp1BaseY := base1
          temp2BaseY := base2 } P.lanes s.coreLocal (s.coreLocal + s.coreHeight) sums
        ((y - core0) * P.stride + x) =
      (sums ((y - core0) * P.stride + x)).add P.nc (temp1 ((y - s.ext0 - base1) * P.stride + x))
        (temp2 ((clampi (y - oy) 0 (P.h - 1) - s.ext0 - base2) * P.stride +
          clampi (x - ox) 0 (P.w - 1)))
        (srcBwd.channels (clampi (y + oy) 0 (P.h - 1)) (clampi (x + ox) 0 (P.w - 1)))
        (srcFwd.channels (clampi (y - oy) 0 (P.h - 1)) (clampi (x - ox) 0 (P.w - 1))) := by
  have hchannels : ∀ f : Frame A P.mode P.w, P.Strided f → ∀ r x : Int, ∀ c < P.nc,
      f.ptrsAt s.ext0 (nlmPlane P.mode c) ((r - s.ext0) * P.stride + x) = f.channels r x c := by
    intro f hf r x c hc
    have := (hf hmixed).ptrsAt s.ext0 (r - s.ext0) x hc
    rw [show s.ext0 + (r - s.ext0) = r by omega] at this
    rw [Frame.channels, nlmPlane_eq]
    exact this
  obtain ⟨hmq, hpq⟩ := neighbour_rows hs hpix hoy
  obtain ⟨hy, hy1, hx, hxw⟩ := hpix
  have hcore := hs.core0_eq
  have hheight := hs.height_eq
  have hw := P.w_pos
  rw [AccumArgs.accumInner_eq P.lanes_pos (show 0 ≤ P.w by omega) hmax,
    show y - core0 = y - s.ext0 - s.coreLocal by omega,
    rowsLoop_at P.w_le_stride (by omega) (by omega) hx hxw]
  simp only [AccumArgs.border, AccumArgs.u4, AccumArgs.u4mq, hmq, hpq]
  exact sumsAdd_congr (fun c hc => hchannels srcBwd hb _ _ c hc)
    fun c hc => hchannels srcFwd hf _ _ c hc

omit hpix hoy in
/-- No maximum gets smaller. -/
theorem accumStrided_max (hbase : 0 ≤ base1) (hbase' : base1 ≤ s.coreLocal)
    (hmax : ∀ i, 0 ≤ (sums i).maxWeight) :
    ∀ i, 0 ≤ (accumStrided P.nc (compact P.mode (srcBwd.ptrsAt s.ext0))
      (compact P.mode srcBwd.strides) (compact P.mode (srcFwd.ptrsAt s.ext0))
      (compact P.mode srcFwd.strides) temp1 temp2 ox oy P.w s.extH P.stride s.coreLocal
      (s.coreLocal + s.coreHeight) base1 sums i).maxWeight := by
  have hpos := hs.height_pos
  rw [accumStrided_eq P.w_pos P.w_le_stride srcBwd.compact_wide srcFwd.compact_wide hs.local_nonneg
    (by omega) hs.core_le hbase hbase' P.nc_pos P.nc_le]
  exact rowsLoop_forall _ (fun _ _ _ h => le_max_of_le_right h) hmax

omit hs hpix hoy in
theorem accumInner_max {args : AccumArgs A} (hargs : args.w = P.w)
    (hmax : ∀ i, 0 ≤ (sums i).maxWeight) :
    ∀ i, 0 ≤ (args.accumInner P.lanes y0 y1 sums i).maxWeight := by
  have hw := P.w_pos
  rw [AccumArgs.accumInner_eq P.lanes_pos (by omega) hmax]
  exact rowsLoop_forall _ (fun _ _ _ h => le_max_of_le_right h) hmax

end Accumulate

/-! ## The sums of a stripe -/

/-- The frames of the slots. -/
def Slots (P : NlmPass A) (t : Int) : Prop := 0 ≤ t ∧ t ≤ 2 * P.p.d

/-- Without mixed strides every frame of the window has the pass's stride. -/
theorem strided_slots {t : Int} (ht : P.Slots t) :
    P.Strided (P.window.src t) ∧ P.Strided (P.window.ref t) := by
  have hmem : t ∈ Int.range 0 (2 * P.p.d + 1) :=
    Int.mem_range_iff.mpr ⟨ht.1, by have := ht.2; omega⟩
  have hboth : P.mixedStrides = false → ∀ c < numChannels P.mode,
      (P.window.src t).strides (firstPlane P.mode + c) = P.stride ∧
        (P.window.ref t).strides (firstPlane P.mode + c) = P.stride := by
    intro hmixed c hc
    simp only [mixedStrides, Bool.or_eq_false_iff, List.any_eq_false] at hmixed
    have hslot := hmixed.1 t hmem
    simp only [List.any_eq_true, not_exists, not_and] at hslot
    have hplane := hslot c (List.mem_range.mpr hc)
    rw [nlmPlane_eq] at hplane
    simpa using hplane
  exact ⟨fun hmixed c hc => (hboth hmixed c hc).1, fun hmixed c hc => (hboth hmixed c hc).2⟩

section Offset

variable {i : Int} (hpix : P.InCore core0 core1 y x) (h0 : 0 ≤ core0) (h1 : core1 ≤ P.h)

include hs hpix h0 h1

omit h0 h1 in
/-- A pixel of the core rows is among the rows read. -/
theorem reads_at {base1 rows1 base2 rows2 : Int} (hoy : -P.p.a ≤ oy ∧ oy ≤ P.p.a)
    (hreads : s.Reads base1 rows1 base2 rows2 oy) :
    (base1 ≤ y - s.ext0 ∧ y - s.ext0 < base1 + rows1) ∧
      base2 ≤ clampi (y - oy) 0 (P.h - 1) - s.ext0 ∧
        clampi (y - oy) 0 (P.h - 1) - s.ext0 < base2 + rows2 := by
  have hcore := hs.core0_eq
  have hheight := hs.height_eq
  have hrow0 := hpix.row0
  have hrow1 := hpix.row1
  have hsecond := hreads.second (y - s.ext0) (by omega) (by omega)
  rw [(neighbour_rows hs hpix hoy).1] at hsecond
  exact ⟨hreads.first _ (by omega) (by omega), hsecond⟩

/-- A map is the frame's at a pixel of the core rows. -/
theorem direct_at (dst : Int → A) {base rows : Int} (hoy : -P.p.a ≤ oy ∧ oy ≤ P.p.a)
    (htemp : P.RowSums s c nb ox oy m.temp) (hbase : 0 ≤ base) (hrows : rows ≤ s.extH)
    (hin : base ≤ y - s.ext0 ∧ y - s.ext0 < rows) :
    (P.verticalWeight s dst base rows m).1 ((y - s.ext0 - base) * P.stride + x) =
      P.patchWeight c nb ox oy y x :=
  verticalWeight_at hs htemp (covered_core hpix h0 h1 hoy) hbase hin.1 hin.2 hrows hpix.col0
    hpix.col1

/-- And at its mirror. -/
theorem mirror_at (dst : Int → A) {base rows : Int} (hoy : -P.p.a ≤ oy ∧ oy ≤ P.p.a)
    (htemp : P.RowSums s c nb ox oy m.temp) (hbase : 0 ≤ base) (hrows : rows ≤ s.extH)
    (hin : base ≤ clampi (y - oy) 0 (P.h - 1) - s.ext0 ∧
      clampi (y - oy) 0 (P.h - 1) - s.ext0 < rows) :
    (P.verticalWeight s dst base rows m).1
        ((clampi (y - oy) 0 (P.h - 1) - s.ext0 - base) * P.stride + clampi (x - ox) 0 (P.w - 1)) =
      P.patchWeight c nb ox oy (clampi (y - oy) 0 (P.h - 1)) (clampi (x - ox) 0 (P.w - 1)) := by
  have hw := P.w_pos
  have hcol := clampi_eq (x - ox) (show 0 ≤ P.w - 1 by omega)
  exact verticalWeight_at hs htemp (covered_mirror hpix h0 h1 hoy) hbase hin.1 hin.2 hrows
    (by omega) (by omega)

theorem accumulateCenter_at (hoy : -P.p.a ≤ oy ∧ oy ≤ P.p.a)
    (hmax : ∀ i, 0 ≤ (m.sums i).maxWeight)
    (htemp : P.RowSums s (P.window.ref P.p.d) (P.window.ref P.p.d) ox oy m.temp) :
    (P.accumulateCenter s ((P.window.src P.p.d).ptrsAt s.ext0) (P.window.src P.p.d).strides ox oy
        m).sums ((y - core0) * P.stride + x) =
      P.visit (0, oy, ox) y x (m.sums ((y - core0) * P.stride + x)) := by
  have hd := P.p.d_nonneg
  have hsrc : P.Strided (P.window.src P.p.d) := (strided_slots ⟨hd, by omega⟩).1
  cases hmixed : P.mixedStrides with
  | true =>
    obtain ⟨hfirst, hsecond⟩ := reads_at hs hpix hoy hs.reads_all
    have hdirect := direct_at hs hpix h0 h1 m.tempBwd hoy htemp (Int.le_refl 0)
      (Int.le_refl _) (by omega)
    have hmirror := mirror_at hs hpix h0 h1 m.tempBwd hoy htemp (Int.le_refl 0)
      (Int.le_refl _) (by omega)
    rw [Int.sub_zero] at hmirror
    simp only [accumulateCenter, hmixed, if_true]
    rw [accumStrided_at hs hpix hoy (Int.le_refl 0) hs.local_nonneg, hdirect, hmirror]
    simp [visit]
  | false =>
    obtain ⟨hbase, -, hrows, hreads⟩ := hs.reads_center oy
    obtain ⟨hfirst, hsecond⟩ := reads_at hs hpix hoy hreads
    simp only [accumulateCenter, hmixed, Bool.false_eq_true, if_false]
    rw [accumInner_at hs hpix hoy hmixed hsrc hsrc hmax,
      direct_at hs hpix h0 h1 _ hoy htemp hbase hrows (by omega),
      mirror_at hs hpix h0 h1 _ hoy htemp hbase hrows (by omega)]
    simp [visit]

omit h0 h1 in
theorem saveRows_at {savedBwd tempBwd : Int → A} :
    P.saveRows s savedBwd tempBwd ((y - s.ext0 - s.coreLocal) * P.stride + x) =
      tempBwd ((y - s.ext0) * P.stride + x) := by
  have hcore := hs.core0_eq
  have hheight := hs.height_eq
  obtain ⟨hy, hy1, hx, hxw⟩ := hpix
  have hw := P.w_le_stride
  have hrows : P.saveRows s savedBwd tempBwd = rowsLoop
      (fun yy x _ => tempBwd ((s.coreLocal + yy) * P.stride + x)) P.stride P.stride 0 0
      s.coreHeight savedBwd :=
    rowsLoop_eq (fun _ => True) trivial (fun yy m _ _ _ => by rw [Int.sub_zero])
      fun _ _ _ _ _ => trivial
  rw [hrows, rowsLoop_zero_at (Int.le_refl _) (by omega) (by omega) hx (by omega),
    show s.coreLocal + (y - s.ext0 - s.coreLocal) = y - s.ext0 by omega]

theorem accumulatePair_at (hi : P.Slots (P.p.d + i)) (hi' : P.Slots (P.p.d - i))
    (hoy : -P.p.a ≤ oy ∧ oy ≤ P.p.a) (hmax : ∀ i, 0 ≤ (m.sums i).maxWeight)
    (htemp : P.RowSums s (P.window.ref P.p.d) (P.window.ref (P.p.d + i)) ox oy m.temp) :
    (P.accumulatePair s ((P.window.ref P.p.d).ptrsAt s.ext0) (P.window.ref P.p.d).strides
        ((P.window.ref (P.p.d - i)).ptrsAt s.ext0) (P.window.ref (P.p.d - i)).strides
        ((P.window.src (P.p.d + i)).ptrsAt s.ext0) (P.window.src (P.p.d + i)).strides
        ((P.window.src (P.p.d - i)).ptrsAt s.ext0) (P.window.src (P.p.d - i)).strides ox oy
        m).sums ((y - core0) * P.stride + x) =
      P.visit (i, oy, ox) y x (m.sums ((y - core0) * P.stride + x)) := by
  have hd := P.p.d_nonneg
  have hext : 0 < s.extH := by
    have := hs.height_pos
    have := hs.core_le
    have := hs.local_nonneg
    omega
  have href : P.Strided (P.window.ref P.p.d) := (strided_slots ⟨hd, by omega⟩).2
  have hrefFwd : P.Strided (P.window.ref (P.p.d - i)) := (strided_slots hi').2
  have htemp' : ∀ m : Scratch A, P.RowSums s (P.window.ref (P.p.d - i)) (P.window.ref P.p.d) ox oy
      (P.distanceHorizontal s ((P.window.ref (P.p.d - i)).ptrsAt s.ext0)
        (P.window.ref (P.p.d - i)).strides ((P.window.ref P.p.d).ptrsAt s.ext0)
        (P.window.ref P.p.d).strides ox oy m).temp := fun m =>
    distanceHorizontal_rowSums hrefFwd href hext
  cases hmixed : P.mixedStrides with
  | true =>
    obtain ⟨hfirst, hsecond⟩ := reads_at hs hpix hoy hs.reads_all
    have hdirect := direct_at hs hpix h0 h1 m.tempBwd hoy htemp (Int.le_refl 0)
      (Int.le_refl _) (by omega)
    rw [Int.sub_zero] at hdirect
    simp only [accumulatePair, hmixed, if_true]
    rw [accumStrided_at hs hpix hoy hs.local_nonneg (Int.le_refl _)]
    simp only [distanceHorizontal_savedBwd, distanceHorizontal_sums]
    rw [saveRows_at hs hpix, hdirect]
    have hmirror := fun m' : Scratch A => fun dst => mirror_at hs hpix h0 h1 dst hoy
      (htemp' m') (Int.le_refl 0) (Int.le_refl _) (by omega)
    simp only [Int.sub_zero] at hmirror
    rw [hmirror]
    simp [visit]
  | false =>
    obtain ⟨hbase, -, hrows, hreads⟩ := hs.reads_pair oy
    obtain ⟨hfirst, hsecond⟩ := reads_at hs hpix hoy hreads
    simp only [accumulatePair, hmixed, Bool.false_eq_true, if_false]
    rw [accumInner_at hs hpix hoy hmixed (strided_slots hi).1 (strided_slots hi').1 (by simpa using hmax)]
    simp only [distanceHorizontal_savedBwd, distanceHorizontal_sums]
    rw [direct_at hs hpix h0 h1 _ hoy htemp hs.local_nonneg hs.core_le (by omega),
      mirror_at hs hpix h0 h1 _ hoy (htemp' _) hbase hrows (by omega)]
    simp [visit]

/-- An offset adds to a pixel of the core rows what it adds on whole frames. -/
theorem runOffset_visit {o : Int × Int × Int} (ho : o ∈ visited P.p.d P.p.a)
    (hmax : ∀ i, 0 ≤ (m.sums i).maxWeight) :
    (P.runOffset s m o).sums ((y - core0) * P.stride + x) =
      P.visit o y x (m.sums ((y - core0) * P.stride + x)) := by
  obtain ⟨hwin, hneg⟩ := mem_visited.mp ho
  have hframe := frame_le_of_position hwin hneg
  obtain ⟨i, oy, ox⟩ := o
  obtain ⟨hi, hoy, -⟩ := hwin
  simp only at hi hoy hframe
  have hd := P.p.d_nonneg
  have hslot : P.Slots (P.p.d + i) := ⟨by omega, by omega⟩
  have hslot' : P.Slots (P.p.d - i) := ⟨by omega, by omega⟩
  have hext : 0 < s.extH := by
    have := hs.height_pos
    have := hs.core_le
    have := hs.local_nonneg
    omega
  have href : P.Strided (P.window.ref P.p.d) := (strided_slots ⟨hd, by omega⟩).2
  have htemp : P.RowSums s (P.window.ref P.p.d) (P.window.ref (P.p.d + i)) ox oy
      (P.distanceHorizontal s ((P.window.ref P.p.d).ptrsAt s.ext0) (P.window.ref P.p.d).strides
        ((P.window.ref (P.p.d + i)).ptrsAt s.ext0) (P.window.ref (P.p.d + i)).strides ox oy m).temp :=
    distanceHorizontal_rowSums href (strided_slots hslot).2 hext
  simp only [runOffset]
  split
  · rename_i hzero
    subst hzero
    simp only [Int.add_zero] at htemp ⊢
    rw [accumulateCenter_at hs hpix h0 h1 hoy (by simpa using hmax) htemp,
      distanceHorizontal_sums]
  · rw [accumulatePair_at hs hpix h0 h1 hslot hslot' hoy (by simpa using hmax) htemp,
      distanceHorizontal_sums]

end Offset

include hs in
/-- The maxima stay above zero. -/
theorem runOffset_max (o : Int × Int × Int) (hmax : ∀ i, 0 ≤ (m.sums i).maxWeight) :
    ∀ i, 0 ≤ ((P.runOffset s m o).sums i).maxWeight := by
  simp only [runOffset]
  split
  · simp only [accumulateCenter]
    split
    · exact accumStrided_max hs (Int.le_refl 0) hs.local_nonneg (by simpa using hmax)
    · exact accumInner_max rfl (by simpa using hmax)
  · simp only [accumulatePair]
    split
    · exact accumStrided_max hs hs.local_nonneg (Int.le_refl _) (by simpa using hmax)
    · exact accumInner_max rfl (by simpa using hmax)

/-- The sums of a pixel, on whole frames: those of the offsets visited, one after the other. -/
def pixelSums (P : NlmPass A) (y x : Int) : Sums A :=
  (visited P.p.d P.p.a).foldl (fun sums o => P.visit o y x sums) ⟨0, P.epsilon, fun _ => 0⟩

/-- A stripe leaves them at its core pixels, whatever its scratch held. -/
theorem sums_at (h0 : 0 ≤ core0) (h01 : core0 < core1) (h1 : core1 ≤ P.h)
    (hpix : P.InCore core0 core1 y x) :
    (P.sumsOf core0 core1 m).sums ((y - core0) * P.stride + x) = P.pixelSums y x := by
  have hhalo : 0 ≤ P.halo := by
    have := P.halo_eq
    have := P.p.a_pos
    have := P.p.s_nonneg
    omega
  have hs := stripe_within hhalo h0 h01 h1
  have hrun : ∀ (offsets : List Offset) (m : Scratch A) (sums : Sums A),
      (∀ o ∈ offsets, o ∈ visited P.p.d P.p.a) → (∀ i, 0 ≤ (m.sums i).maxWeight) →
      m.sums ((y - core0) * P.stride + x) = sums →
      (offsets.foldl (P.runOffset (stripe P.halo P.h core0 core1)) m).sums
        ((y - core0) * P.stride + x) = offsets.foldl (fun sums o => P.visit o y x sums) sums := by
    intro offsets
    induction offsets with
    | nil => exact fun m sums _ _ hm => hm
    | cons o offsets ih =>
      intro m sums hmem hmax hm
      refine ih _ _ (fun o' ho' => hmem o' (List.mem_cons_of_mem _ ho'))
        (runOffset_max hs o hmax) ?_
      rw [runOffset_visit hs hpix h0 h1 (hmem o List.mem_cons_self) hmax, hm]
  exact hrun _ _ _ (fun o ho => ho) (fun i => P.epsilon_pos.le) rfl

/-- **Striping makes no difference.** For every partition of the rows into stripes the sums handed
to the finish for a pixel are those of the one stripe of the whole frame, whatever the scratch
held; and every row read by the kernels of a stripe has been written by them before. -/
theorem striping_invariant (P : NlmPass A) (core0 core1 : Int) (m m' : Scratch A) (h0 : 0 ≤ core0)
    (h01 : core0 < core1) (h1 : core1 ≤ P.h) :
    (∀ y x, core0 ≤ y → y < core1 → 0 ≤ x → x < P.w →
      (P.sumsOf core0 core1 m).sums ((y - core0) * P.stride + x) =
        (P.sumsOf 0 P.h m').sums (y * P.stride + x)) ∧
    Fed noRows ((stripe P.halo P.h core0 core1).runCalls P.p P.mixedStrides) ∧
    ∀ c ∈ (stripe P.halo P.h core0 core1).runCalls P.p P.mixedStrides, ∀ b r, c.touches b r →
      0 ≤ r ∧ r < (stripe P.halo P.h core0 core1).rows b := by
  have hhalo : 0 ≤ P.halo := by
    have := P.halo_eq
    have := P.p.a_pos
    have := P.p.s_nonneg
    omega
  have hs := stripe_within hhalo h0 h01 h1
  refine ⟨fun y x hy hy1 hx hxw => ?_, hs.fed_run P.p, fun c hc b r ht => (hs.run_carved P.p c hc b r ht).2⟩
  rw [sums_at h0 h01 h1 ⟨hy, hy1, hx, hxw⟩]
  have hpix : P.InCore 0 P.h y x := ⟨by omega, by omega, hx, hxw⟩
  have hwhole := sums_at (m := m') (Int.le_refl 0) P.h_pos (Int.le_refl P.h) hpix
  rwa [Int.sub_zero, eq_comm] at hwhole

/-! ## The finish -/

/-- Planes set one after the other, each from what it was. -/
theorem foldl_update_at {B : Type*} {plane : Nat → Nat} (hinj : Function.Injective plane)
    (g : Nat → B → B) (dst : Nat → B) {n c : Nat} (hc : c < n) :
    ((List.range n).foldl (fun dst c => Function.update dst (plane c) (g c (dst (plane c)))) dst)
      (plane c) = g c (dst (plane c)) := by
  have hoff : ∀ n ≤ c, ((List.range n).foldl
      (fun dst c => Function.update dst (plane c) (g c (dst (plane c)))) dst) (plane c) =
        dst (plane c) := by
    intro n hn
    induction n with
    | zero => rfl
    | succ n ih =>
      rw [List.range_succ, List.foldl_append, List.foldl_cons, List.foldl_nil,
        Function.update_of_ne (fun h => by have := hinj h; omega), ih (by omega)]
  induction n with
  | zero => omega
  | succ n ih =>
    rw [List.range_succ, List.foldl_append, List.foldl_cons, List.foldl_nil]
    rcases Nat.lt_or_ge c n with hlt | hge
    · rw [Function.update_of_ne (fun h => by have := hinj h; omega), ih hlt]
    · obtain rfl : c = n := by omega
      rw [Function.update_self, hoff c (Nat.le_refl c)]

theorem nlmPlane_injective (mode : ChannelMode) : Function.Injective (nlmPlane mode) := by
  intro c c' h
  rw [nlmPlane_eq, nlmPlane_eq] at h
  omega

/-- The rows the finish writes of a plane. -/
theorem finish_plane {k : Nat} {sums : Int → Sums A} {out : Planes A} (hk : k < P.nc)
    (hs : s.Within P.halo P.h core0 core1) (hcore : s.core0 = core0) :
    P.finish s sums out (nlmPlane P.mode k) =
      rowsLoop (fun y x _ => finishValue P.wref (sums (y * P.stride + x)) k
        ((P.window.src P.p.d).channels (core0 + y) x k)) P.w (P.dstStrides (nlmPlane P.mode k))
        (-core0) 0 s.coreHeight (out (nlmPlane P.mode k)) := by
  have hd := P.p.d_nonneg
  have hw := P.w_pos
  have hheight := hs.height_pos
  have hlocal := hs.core0_eq
  have hsrc : ∀ (y x : Int), (P.window.src P.p.d).ptrsAt s.ext0 (nlmPlane P.mode k)
      (s.coreLocal * (P.window.src P.p.d).strides (nlmPlane P.mode k) +
        (y * (P.window.src P.p.d).strides (nlmPlane P.mode k) + x)) =
      (P.window.src P.p.d).channels (core0 + y) x k := by
    intro y x
    simp only [Frame.ptrsAt, Frame.channels, Frame.pixel, Planes.pixel]
    congr 1
    rw [← hlocal]
    ring
  have hbase : ∀ stride y : Int, core0 * stride + y * stride = (y - -core0) * stride := by
    intro stride y
    ring
  simp only [finish, hcore]
  cases hmixed : P.mixedStrides with
  | true =>
    have hany : ((List.range P.nc).any fun c =>
        decide (compact P.mode P.dstStrides c < P.w) ||
          decide (compact P.mode (P.window.src P.p.d).strides c < P.w)) = false := by
      rw [List.any_eq_false]
      intro c hc
      have hdst : P.w ≤ P.dstStrides (firstPlane P.mode + c) := P.dst_wide c (List.mem_range.mp hc)
      have hsrc : P.w ≤ compact P.mode (P.window.src P.p.d).strides c :=
        (P.window.src P.p.d).compact_wide c (List.mem_range.mp hc)
      rw [compact_eq, nlmPlane_eq]
      simp
      omega
    have hnc : max 1 (min 3 P.nc) = P.nc := by
      have := P.nc_pos
      have := P.nc_le
      omega
    have hstride := P.w_le_stride
    rw [if_pos rfl, finishStrided, if_neg (by omega)]
    simp only [hnc, hany, Bool.false_eq_true, if_false]
    rw [foldl_update_at (nlmPlane_injective P.mode) (fun c dst => finishStridedPlane P.wref dst
      (compact P.mode (fun c => core0 * P.dstStrides c) c) (compact P.mode P.dstStrides c)
      (compact P.mode (fun c i => (P.window.src P.p.d).ptrsAt s.ext0 c
        (s.coreLocal * (P.window.src P.p.d).strides c + i)) c)
      (compact P.mode (P.window.src P.p.d).strides c) sums c P.w s.coreHeight P.stride) out hk]
    refine rowsLoop_eq (fun _ => True) trivial (fun y m _ _ _ => ?_) fun _ _ _ _ _ => trivial
    simp only [compact_eq, hsrc, hbase]
  | false =>
    have hdst : P.dstStrides (nlmPlane P.mode k) = P.stride := by
      simp only [mixedStrides, Bool.or_eq_false_iff, List.any_eq_false] at hmixed
      simpa using hmixed.2 k (List.mem_range.mpr hk)
    have hcenter : (P.window.src P.p.d).strides (nlmPlane P.mode k) = P.stride := by
      rw [nlmPlane_eq]
      exact (strided_slots ⟨hd, by omega⟩).1 hmixed k hk
    rw [if_neg (by simp)]
    rw [foldl_update_at (nlmPlane_injective P.mode) (fun c dst => finishCh1 P.lanes P.wref dst
      (core0 * P.dstStrides (nlmPlane P.mode c))
      (fun i => (P.window.src P.p.d).ptrsAt s.ext0 (nlmPlane P.mode c)
        (s.coreLocal * (P.window.src P.p.d).strides (nlmPlane P.mode c) + i))
      sums c P.w s.coreHeight P.stride) out hk]
    refine rowsLoop_eq (fun _ => True) trivial (fun y m _ _ _ => ?_) fun _ _ _ _ _ => trivial
    rw [stripLoop_self P.lanes_pos, hdst, hbase]
    simp only [hcenter] at hsrc
    simp only [hcenter, hsrc]

/-! ## The output -/

/-- The finished value of a pixel, on whole frames. -/
def pixelValue (P : NlmPass A) (y x : Int) (k : Nat) : A :=
  finishValue P.wref (P.pixelSums y x) k ((P.window.src P.p.d).channels y x k)

/-- A stripe writes the values of its core pixels, and no other rows. -/
theorem run_at {k : Nat} {out : Planes A} (hk : k < P.nc) (h0 : 0 ≤ core0) (h01 : core0 < core1)
    (h1 : core1 ≤ P.h) (hx : 0 ≤ x) (hxw : x < P.w) :
    (P.run core0 core1 m out).2 (nlmPlane P.mode k) (y * P.dstStrides (nlmPlane P.mode k) + x) =
      if core0 ≤ y ∧ y < core1 then P.pixelValue y x k
      else out (nlmPlane P.mode k) (y * P.dstStrides (nlmPlane P.mode k) + x) := by
  have hhalo : 0 ≤ P.halo := by
    have := P.halo_eq
    have := P.p.a_pos
    have := P.p.s_nonneg
    omega
  have hs := stripe_within hhalo h0 h01 h1
  have hheight : (stripe P.halo P.h core0 core1).coreHeight = core1 - core0 := rfl
  have hwide : P.w ≤ P.dstStrides (nlmPlane P.mode k) := by
    rw [nlmPlane_eq]
    exact P.dst_wide k hk
  simp only [run]
  rw [finish_plane hk hs rfl, hheight]
  split
  · rename_i hy
    have hat : ∀ F, rowsLoop F P.w (P.dstStrides (nlmPlane P.mode k)) (-core0) 0 (core1 - core0)
        (out (nlmPlane P.mode k)) ((y - core0 - -core0) * P.dstStrides (nlmPlane P.mode k) + x) =
          F (y - core0) x _ := fun F =>
      rowsLoop_at hwide (show 0 ≤ y - core0 by omega) (by omega) hx hxw
    rw [show y - core0 - -core0 = y by omega] at hat
    rw [hat, sums_at h0 h01 h1 ⟨hy.1, hy.2, hx, hxw⟩, show core0 + (y - core0) = y by omega]
    rfl
  · rename_i hy
    refine rowsLoop_off hwide fun y' x' hy0 hy1 hx' hxw' he => hy ?_
    have := (pixel_inj hx (by omega) hx' (by omega) he).1
    omega

/-- The stripes together write every pixel of the frame. -/
theorem runAll_at {k : Nat} {out : Planes A} {coreRows : Int} (hcore : 0 < coreRows) (hk : k < P.nc)
    (hy : 0 ≤ y) (hyh : y < P.h) (hx : 0 ≤ x) (hxw : x < P.w) :
    (P.runAll coreRows m out).2 (nlmPlane P.mode k) (y * P.dstStrides (nlmPlane P.mode k) + x) =
      P.pixelValue y x k := by
  have hrun : ∀ y0 (s : Scratch A × Planes A), 0 ≤ y0 →
      ((stripesFrom coreRows P.h y0).foldl (fun s core => P.run core.1 core.2 s.1 s.2) s).2
        (nlmPlane P.mode k) (y * P.dstStrides (nlmPlane P.mode k) + x) =
      if y0 ≤ y then P.pixelValue y x k
      else s.2 (nlmPlane P.mode k) (y * P.dstStrides (nlmPlane P.mode k) + x) := by
    intro y0
    induction y0 using stripesFrom.induct coreRows P.h with
    | case1 y0 hy0 ih =>
      intro s h0
      rw [stripesFrom, if_pos hy0, List.foldl_cons, ih _ (by omega),
        run_at hk h0 (by omega) (by omega) hx hxw]
      split_ifs <;> first | rfl | omega
    | case2 y0 hy0 =>
      intro s h0
      rw [stripesFrom, if_neg hy0, if_neg (by omega)]
      rfl
  rw [runAll, hrun 0 _ (Int.le_refl 0), if_pos hy]

/-! ## The neighbours -/

/-- The pixel at an offset: that slot's, at coordinates clamped to the frame. -/
def neighbour (P : NlmPass A) (o : Offset) (y x : Int) : Pixel A :=
  (P.window.src (P.p.d + o.1)).channels (clampi (y + o.2.1) 0 (P.h - 1))
    (clampi (x + o.2.2) 0 (P.w - 1))

/-- Its weight: an offset before the center is compared as it is, the others as mirrors. -/
def neighbourWeight (P : NlmPass A) (o : Offset) (y x : Int) : A :=
  let ref := P.window.ref P.p.d
  let other := P.window.ref (P.p.d + o.1)
  if position P.p.a o < 0 then P.patchWeight ref other o.2.2 o.2.1 y x
  else P.patchWeight other ref (-o.2.2) (-o.2.1) (clampi (y + o.2.1) 0 (P.h - 1))
    (clampi (x + o.2.2) 0 (P.w - 1))

/-- A visit adds the neighbour at the offset and the one at its negation. -/
theorem visit_eq {o : Offset} (ho : o ∈ visited P.p.d P.p.a) (sums : Sums A) :
    P.visit o y x sums = sums.add P.nc (P.neighbourWeight o y x) (P.neighbourWeight o.neg y x)
      (P.neighbour o y x) (P.neighbour o.neg y x) := by
  have hneg := (mem_visited.mp ho).2
  have hpos : ¬ position P.p.a o.neg < 0 := by rw [position_neg]; omega
  simp only [neighbourWeight, if_pos hneg, if_neg hpos]
  simp only [visit, neighbour, Offset.neg, Int.neg_neg, ← Int.sub_eq_add_neg]

/-- What the visits have added up to. -/
theorem foldl_visit {offsets : List Offset} (h : ∀ o ∈ offsets, o ∈ visited P.p.d P.p.a)
    (sums : Sums A) :
    (offsets.foldl (fun sums o => P.visit o y x sums) sums).weight =
        sums.weight + (offsets.map fun o =>
          P.neighbourWeight o y x + P.neighbourWeight o.neg y x).sum ∧
      (∀ k < P.nc, (offsets.foldl (fun sums o => P.visit o y x sums) sums).wdst k =
        sums.wdst k + (offsets.map fun o => P.neighbourWeight o y x * P.neighbour o y x k +
          P.neighbourWeight o.neg y x * P.neighbour o.neg y x k).sum) ∧
      sums.maxWeight ≤ (offsets.foldl (fun sums o => P.visit o y x sums) sums).maxWeight := by
  induction offsets generalizing sums with
  | nil => simp
  | cons o offsets ih =>
    obtain ⟨hweight, hwdst, hmax⟩ := ih (fun o' ho' => h o' (List.mem_cons_of_mem _ ho'))
      (P.visit o y x sums)
    rw [List.foldl_cons]
    rw [visit_eq (h o List.mem_cons_self)] at hweight hwdst hmax ⊢
    refine ⟨?_, fun k hk => ?_, ?_⟩
    · rw [hweight, List.map_cons, List.sum_cons, Sums.add, add_assoc]
    · rw [hwdst k hk, List.map_cons, List.sum_cons]
      simp only [Sums.add, if_pos hk, add_assoc]
    · exact (le_max_right _ _).trans hmax

/-- The sums of a pixel are sums over the window without the center. -/
theorem pixelSums_eq (P : NlmPass A) (y x : Int) :
    (P.pixelSums y x).weight = ∑ o ∈ others P.p.d P.p.a, P.neighbourWeight o y x ∧
      (∀ k < P.nc, (P.pixelSums y x).wdst k =
        ∑ o ∈ others P.p.d P.p.a, P.neighbourWeight o y x * P.neighbour o y x k) ∧
      P.epsilon ≤ (P.pixelSums y x).maxWeight := by
  obtain ⟨hweight, hwdst, hmax⟩ := foldl_visit (P := P) (y := y) (x := x) (fun o ho => ho)
    ⟨0, P.epsilon, fun _ => 0⟩
  refine ⟨?_, fun k hk => ?_, hmax⟩
  · rw [sum_others]
    exact hweight.trans (zero_add _)
  · rw [sum_others]
    exact (hwdst k hk).trans (zero_add _)

section Convex

variable [IsStrictOrderedRing A]

theorem weightOf_nonneg {exp : A → A} (hexp : ∀ v, 0 ≤ exp v) (weight : NlmWeight) (sum scale : A) :
    0 ≤ weightOf exp weight sum scale := by
  have hmax : 0 ≤ max (sum * scale + 1) 0 := le_max_right _ _
  cases weight with
  | welsch => exact hexp _
  | bisquareA => exact hmax
  | bisquareB => exact mul_nonneg hmax hmax
  | bisquareC => exact mul_self_nonneg _

theorem neighbourWeight_nonneg (hexp : ∀ v, 0 ≤ P.exp v) (o : Offset) (y x : Int) :
    0 ≤ P.neighbourWeight o y x := by
  simp only [neighbourWeight]
  split <;> exact weightOf_nonneg hexp _ _ _

/-- The weight of the center. -/
def centerWeight (P : NlmPass A) (y x : Int) : A := P.wref * (P.pixelSums y x).maxWeight

/-- **Every neighbour once.** The offsets visited and their negations are the offsets of the
window but the center, each once; the output of every pixel weights the neighbour at each of them
once, and the center by its own term; so, with weights that are not negative, it is a convex
combination of source pixels. -/
theorem neighbours_once (P : NlmPass A) (coreRows : Int) (m : Scratch A) (dst : Planes A)
    (hcore : 0 < coreRows) :
    ((visited P.p.d P.p.a ++ (visited P.p.d P.p.a).map Offset.neg).Nodup ∧
      ∀ o, o ∈ visited P.p.d P.p.a ++ (visited P.p.d P.p.a).map Offset.neg ↔
        o ≠ (0, 0, 0) ∧ InWindow P.p.d P.p.a o) ∧
    ∀ y x k, 0 ≤ y → y < P.h → 0 ≤ x → x < P.w → k < P.nc →
      (P.runAll coreRows m dst).2 (nlmPlane P.mode k)
          (y * P.dstStrides (nlmPlane P.mode k) + x) =
        (P.centerWeight y x * (P.window.src P.p.d).channels y x k +
            ∑ o ∈ others P.p.d P.p.a, P.neighbourWeight o y x * P.neighbour o y x k) /
          (P.centerWeight y x + ∑ o ∈ others P.p.d P.p.a, P.neighbourWeight o y x) ∧
      ((∀ v, 0 ≤ P.exp v) → ∃ l : Offset → A, (∀ o, 0 ≤ l o) ∧
        l (0, 0, 0) + ∑ o ∈ others P.p.d P.p.a, l o = 1 ∧
        (P.runAll coreRows m dst).2 (nlmPlane P.mode k)
            (y * P.dstStrides (nlmPlane P.mode k) + x) =
          l (0, 0, 0) * (P.window.src P.p.d).channels y x k +
            ∑ o ∈ others P.p.d P.p.a, l o * P.neighbour o y x k) := by
  refine ⟨⟨(visited_neg _ _).1, fun o => ((visited_neg _ _).2 o).trans mem_others⟩, ?_⟩
  intro y x k hy hyh hx hxw hk
  obtain ⟨hweight, hwdst, hmax⟩ := P.pixelSums_eq y x
  have hvalue : (P.runAll coreRows m dst).2 (nlmPlane P.mode k)
      (y * P.dstStrides (nlmPlane P.mode k) + x) =
        (P.centerWeight y x * (P.window.src P.p.d).channels y x k +
            ∑ o ∈ others P.p.d P.p.a, P.neighbourWeight o y x * P.neighbour o y x k) /
          (P.centerWeight y x + ∑ o ∈ others P.p.d P.p.a, P.neighbourWeight o y x) := by
    rw [runAll_at hcore hk hy hyh hx hxw, pixelValue, finishValue, hweight, hwdst k hk]
    rfl
  refine ⟨hvalue, fun hexp => ?_⟩
  have hcenter : 0 < P.centerWeight y x := mul_pos P.wref_pos (P.epsilon_pos.trans_le hmax)
  have hsum : 0 ≤ ∑ o ∈ others P.p.d P.p.a, P.neighbourWeight o y x :=
    Finset.sum_nonneg fun o _ => neighbourWeight_nonneg hexp o y x
  have htotal : 0 < P.centerWeight y x +
      ∑ o ∈ others P.p.d P.p.a, P.neighbourWeight o y x := by linarith
  generalize htot : P.centerWeight y x +
    ∑ o ∈ others P.p.d P.p.a, P.neighbourWeight o y x = total at htotal hvalue
  let l : Offset → A := fun o =>
    (if o = (0, 0, 0) then P.centerWeight y x else P.neighbourWeight o y x) / total
  have hl : ∀ o ∈ others P.p.d P.p.a, l o = P.neighbourWeight o y x / total := fun o ho => by
    simp only [l, if_neg (mem_others.mp ho).1]
  have hl0 : l (0, 0, 0) = P.centerWeight y x / total := by simp only [l, if_true]
  refine ⟨l, fun o => ?_, ?_, ?_⟩
  · simp only [l]
    split
    · exact div_nonneg hcenter.le htotal.le
    · exact div_nonneg (neighbourWeight_nonneg hexp o y x) htotal.le
  · rw [hl0, Finset.sum_congr rfl hl, ← Finset.sum_div, ← add_div, htot, div_self htotal.ne']
  · have hterm : ∀ o ∈ others P.p.d P.p.a, l o * P.neighbour o y x k =
        P.neighbourWeight o y x * P.neighbour o y x k / total := fun o ho => by
      rw [hl o ho, div_mul_eq_mul_div]
    rw [hvalue, hl0, Finset.sum_congr rfl hterm, ← Finset.sum_div, div_mul_eq_mul_div, ← add_div]

end Convex

end NlmPass

/-! ## A small pass -/

/-- The planes of frame `n` of a clip, rows of `8 + n` floats. -/
def smallFrame (n : Int) : Frame ℚ .uv 5 where
  planes c i := c + i + n
  strides _ := max 5 (8 + n)
  wide _ _ := by omega

theorem smallPass_lanes : (0 : Int) < 4 := by decide

theorem smallPass_halo : (3 : Int) = smallParams.a + smallParams.s := rfl

theorem smallPass_wide : ∀ c < numChannels smallParams.channels, (5 : Int) ≤ 8 := fun _ _ => by decide

/-- The first of two frames, so that a slot has it again. -/
def smallPass : NlmPass ℚ where
  p := smallParams
  w := 5
  h := 3
  window := loadWindow 1 0 2 smallFrame none
  weight := .bisquareB
  wref := 1
  h2InvNorm := 1
  epsilon := 1
  exp v := v * v
  lanes := 4
  halo := 3
  dstStrides _ := 8
  w_pos := smallPlane.w_pos
  h_pos := smallPlane.h_pos
  wref_pos := by decide
  epsilon_pos := by decide
  lanes_pos := smallPass_lanes
  halo_eq := smallPass_halo
  dst_wide := smallPass_wide

namespace NlmPass

theorem striping_invariant_small :
    (smallPass.sumsOf 1 3 ⟨fun _ => ⟨7, 7, fun _ => 7⟩, id ∘ Int.cast, 0, 0, 0⟩).sums
        ((2 - 1) * smallPass.stride + 4) =
      (smallPass.sumsOf 0 3 ⟨fun _ => ⟨0, 0, fun _ => 0⟩, 0, 0, 0, 0⟩).sums
        (2 * smallPass.stride + 4) :=
  (smallPass.striping_invariant 1 3 _ _ (by decide) (by decide) (by decide)).1 2 4 (by decide)
    (by decide) (by decide) (by decide)

theorem neighbours_once_small : ∃ l : Offset → ℚ, (∀ o, 0 ≤ l o) ∧
    l (0, 0, 0) + ∑ o ∈ others 1 2, l o = 1 ∧
    (smallPass.runAll 2 ⟨fun _ => ⟨7, 7, fun _ => 7⟩, 0, 0, 0, 0⟩ fun _ _ => 0).2 2 (2 * 8 + 4) =
      l (0, 0, 0) * (smallPass.window.src 1).channels 2 4 1 +
        ∑ o ∈ others 1 2, l o * smallPass.neighbour o 2 4 1 :=
  ((smallPass.neighbours_once 2 _ _ (by decide)).2 2 4 1 (by decide) (by decide) (by decide)
    (by decide) (by decide)).2 mul_self_nonneg

end NlmPass

end NssFactory.Nlm
