import NssFactory.Lib.CInt
import NssFactory.Gpu.Walk

/-!
# The `int` expressions of a rolling chunk

The clipped helpers of `frontend/temporal.hpp`, the fill of a chunk on the CPU
(`rolling_fill_chunk_carried`, and `rolling_fill_chunk_chroma`, whose bounds are the same) and
`walk_chunk` of the GPU drivers, once more: here every sum, difference and product is an
`int`, and a function that leaves its range returns none. The pixels are left out, they take
no part in the geometry.

The helpers cannot overflow. The fill computes `last + r` and the walk `start + count - 1 +
radius` and a few more before they clip them, so a chunk near the end of a clip of `INT_MAX`
frames overflows; `FillFits` and `WalkFits` say exactly which chunks do not.
-/

namespace NssFactory.Checked

open CInt Rolling

/-! ## The helpers -/

def temporalFirst (center radius : Int) : Option Int := sub center (min center radius)

def temporalLast (center radius frames : Int) : Option Int := do
  let final ← sub frames 1
  let rest ← sub final center
  add center (min radius rest)

def temporalSlotFrame (center slot radius frames : Int) : Option Int := do
  let offset ← sub slot radius
  let lo ← sub 0 center
  let final ← sub frames 1
  let hi ← sub final center
  add center (clamp offset lo hi)

/-! ## The fill of a chunk on the CPU -/

section Fill

variable (d : Geometry)

/-- The bounds of a chunk. -/
structure FillBounds where
  last : Int
  first : Int
  carryFirst : Int
  carryTargets : Int
  deriving DecidableEq, Repr

def ntemp : Option Int := do
  let twice ← mul 2 d.radius
  add twice 1

/-- `finish`: the frames before `fin` whose last center is at or before `center`. -/
def finish (start fin center : Int) : Nat → Int → Option Int
  | 0, out => some out
  | fuel + 1, out =>
    if out < fin then do
      let last ← temporalLast out d.radius d.numFrames
      if last ≤ center then do
        let _ ← sub out start
        let ring ← ntemp d
        let _ ← mod out ring
        let next ← add out 1
        finish start fin center fuel next
      else some out
    else some out

/-- The slots of a center's window that hold frames. -/
def validSlots (center : Int) : Option Int := do
  let _ ← sub d.radius center
  let reach ← add d.radius 1
  let left ← sub d.numFrames center
  add d.radius (min reach left)

/-- A target of a center: its slice, and its cell of the ring. -/
def addTarget (center target : Int) : Option Unit := do
  let offset ← sub target center
  let _ ← add offset d.radius
  let ring ← ntemp d
  let _ ← mod target ring
  some ()

def runCenter (start fin out center : Int) : Option Int := do
  let ring ← ntemp d
  upTo 0 (ring - 1) () fun _ t => do
    let _ ← temporalSlotFrame center t d.radius d.numFrames
    some ()
  let _ ← validSlots d center
  let low ← sub center d.radius
  let high ← temporalLast center d.radius d.numFrames
  upTo (max start low) high () fun _ target => addTarget d center target
  finish d start fin center (fin - out).toNat out

/-- The targets that a chunk ending at `fin` leaves for the next. -/
def leftTargets (fin : Int) : Int :=
  max 0 (min (NssFactory.temporalLast (fin - 1) d.radius d.numFrames + d.radius) (d.numFrames - 1) - fin + 1)

/-- The first center of a chunk: behind those of the chunk it carries on from. -/
def fillFirst (start : Int) (carry : Bool) : Option Int :=
  if carry then do
    let before ← sub start 1
    let run ← temporalLast before d.radius d.numFrames
    add run 1
  else do
    let low ← sub start d.radius
    some (max 0 low)

/-- Frame `first + i` for each of `n` targets of a carry. -/
def carriedTargets (first n : Int) : Option Unit :=
  upTo 0 (n - 1) () fun _ i => do
    let _ ← add first i
    some ()

/-- `rolling_fill_chunk_carried`; with `carry` it starts from what the chunk before left. -/
def rollingFillChunkCarried (start count : Int) (carry : Bool) : Option FillBounds := do
  let fin ← add start count
  let tail ← sub fin 1
  let last ← temporalLast tail d.radius d.numFrames
  let first ← fillFirst d start carry
  let reach ← add last d.radius
  let final ← sub d.numFrames 1
  let behind ← sub (min reach final) fin
  let targets ← add behind 1
  carriedTargets start (if carry then leftTargets d start else 0)
  let before ← sub first 1
  let out ← finish d start fin before (fin - start).toNat start
  let _ ← upTo first last out (runCenter d start fin)
  carriedTargets fin (max 0 targets)
  some ⟨last, first, fin, max 0 targets⟩

end Fill

/-! ## The walk on the GPU -/

section Walks

variable (d : Geometry)

/-- `std::min(x + radius, last)` -/
def reach (x : Int) : Option Int := do
  let sum ← add x d.radius
  let last ← sub d.numFrames 1
  some (min sum last)

def basicCenters (hi : Int) (w : Walk) : Option Walk :=
  upTo w.center hi w fun w c =>
    some { w with center := c + 1, visits := w.visits ++ [Visit.basicCenter c w.frame] }

/-- A frame of the first stage, after its centers. -/
def basicFrame (w : Walk) (frame : Int) : Option Walk := do
  let hi ← reach d frame
  let w ← basicCenters hi w
  some { w with frame := frame + 1, visits := w.visits ++ [Visit.basicFrame frame] }

def basicFrames (f : Int) (w : Walk) : Option Walk := do
  let hi ← reach d f
  upTo w.frame hi w (basicFrame d)

def outputs (fin f : Int) : Nat → Walk → Option Walk
  | 0, w => some w
  | fuel + 1, w =>
    if w.out < fin then do
      let hi ← reach d w.out
      if hi ≤ f then do
        let next ← add w.out 1
        outputs fin f fuel { w with out := next, visits := w.visits ++ [Visit.output w.out] }
      else some w
    else some w

def firstStage (f : Int) (w : Walk) : Option Walk :=
  if d.twoStage then basicFrames d f w else some w

def walkCenter (fin : Int) (w : Walk) (f : Int) : Option Walk := do
  let w ← firstStage d f w
  outputs d fin f (fin - w.out).toNat { w with visits := w.visits ++ [Visit.center f w.out] }

def firstCenter (start lastCenter : Int) (carry : Bool) : Option Int :=
  if carry then do
    let next ← add start d.radius
    let past ← add lastCenter 1
    some (min next past)
  else do
    let low ← sub start d.radius
    some (max 0 low)

/-- Where `n` radii past the frame before a chunk end, or `x` starts afresh. -/
def firstOf (n start x : Int) (carry : Bool) : Option Int :=
  if carry then do
    let before ← sub start 1
    let radii ← mul n d.radius
    let sum ← add before radii
    let last ← sub d.numFrames 1
    add (min sum last) 1
  else do
    let low ← sub x d.radius
    some (max 0 low)

/-- The frames that no center of the walk finished. -/
def restOutputs (fin : Int) (w : Walk) : Option Walk :=
  upTo w.out (fin - 1) w fun w out => some { w with visits := w.visits ++ [Visit.output out] }

/-- `walk_chunk` -/
def walkChunk (start count : Int) (carry : Bool) : Option (List Visit) := do
  let fin ← add start count
  let tail ← sub fin 1
  let lastCenter ← reach d tail
  let first ← firstCenter d start lastCenter carry
  let frame ← firstOf d 2 start first carry
  let center ← firstOf d 3 start frame carry
  let w ← upTo first lastCenter ⟨frame, center, start, []⟩ (walkCenter d fin)
  let w ← restOutputs fin w
  some w.visits

end Walks

/-! ## What stays in range -/

section Helpers

variable {center radius frames slot : Int}

theorem temporalFirst_eq (h0 : 0 ≤ center) (h : center ≤ intMax) (hr : 0 ≤ radius) :
    temporalFirst center radius = some (NssFactory.temporalFirst center radius) := by
  have hmax : intMax = 2147483647 := rfl
  exact ofInt_eq (by omega) (by omega)

theorem temporalLast_eq (h0 : 0 ≤ center) (h : center < frames) (hf : frames ≤ intMax) (hr : 0 ≤ radius) :
    temporalLast center radius frames = some (NssFactory.temporalLast center radius frames) := by
  have hmax : intMax = 2147483647 := rfl
  simp (disch := omega) only [temporalLast, add, sub, ofInt_bind]
  exact ofInt_eq (by omega) (by omega)

theorem temporalSlotFrame_eq (h0 : 0 ≤ center) (h : center < frames) (hf : frames ≤ intMax)
    (hs : 0 ≤ slot) (hs' : slot ≤ 2 * radius) (hr : radius ≤ 16) :
    temporalSlotFrame center slot radius frames =
      some (NssFactory.temporalSlotFrame center slot radius frames) := by
  have hmax : intMax = 2147483647 := rfl
  obtain ⟨hlo, hhi⟩ := temporalSlotFrame_mem h0 h hs hs'
  rw [NssFactory.temporalSlotFrame] at hlo hhi
  simp (disch := omega) only [temporalSlotFrame, add, sub, ofInt_bind, Int.zero_sub]
  exact ofInt_eq (by omega) (by omega)

end Helpers

/-- A clip that a rolling filter takes. -/
structure Clip (d : Geometry) : Prop where
  frames_pos : 1 ≤ d.numFrames
  frames_le : d.numFrames ≤ intMax
  radius_pos : 1 ≤ d.radius
  radius_le : d.radius ≤ 16

/-- The chunks that the fill can compute in `int`. -/
def FillFits (d : Geometry) (start count : Int) : Prop :=
  min (start + count - 1 + d.radius) (d.numFrames - 1) + d.radius ≤ intMax

instance (d : Geometry) (start count : Int) : Decidable (FillFits d start count) :=
  inferInstanceAs (Decidable (_ ≤ _))

section Fill

variable {d : Geometry} {start count fin center out : Int} {carry : Bool}

theorem ntemp_eq (hc : Clip d) : ntemp d = some (2 * d.radius + 1) := by
  have hr := hc.radius_pos
  have hr' := hc.radius_le
  simp (disch := omega) only [ntemp, mul, ofInt_bind]
  exact ofInt_eq (by omega) (by omega)

theorem finish_keeps (hc : Clip d) (h0 : 0 ≤ start) (hfin : fin ≤ d.numFrames) {fuel : Nat}
    (hout : start ≤ out ∧ out ≤ fin) :
    ∃ out', finish d start fin center fuel out = some out' ∧ start ≤ out' ∧ out' ≤ fin := by
  have hmax : intMax = 2147483647 := rfl
  have hframes := hc.frames_le
  have hr := hc.radius_pos
  induction fuel generalizing out with
  | zero => exact ⟨out, rfl, hout⟩
  | succ fuel ih =>
    by_cases hlt : out < fin
    · rw [finish, if_pos hlt, temporalLast_eq (by omega) (by omega) hframes (by omega)]
      simp only [Option.bind_eq_bind, Option.bind_some]
      by_cases hlast : NssFactory.temporalLast out d.radius d.numFrames ≤ center
      · have hcell : mod out (2 * d.radius + 1) = some (out % (2 * d.radius + 1)) :=
          mod_of_nonneg (by omega) (by omega) (by omega)
        have hpast : sub out start = some (out - start) := ofInt_eq (by omega) (by omega)
        have hnext : add out 1 = some (out + 1) := ofInt_eq (by omega) (by omega)
        simp only [if_pos hlast, hpast, ntemp_eq hc, hcell, hnext, Option.bind_some]
        exact ih ⟨by omega, by omega⟩
      · rw [if_neg hlast]
        exact ⟨out, rfl, hout⟩
    · rw [finish, if_neg hlt]
      exact ⟨out, rfl, hout⟩

theorem addTarget_eq (hc : Clip d) {target : Int} (hcenter : 0 ≤ center) (hcenter' : center < d.numFrames)
    (h0 : 0 ≤ target) (h : target < d.numFrames) (hnear : target ≤ center + d.radius) :
    addTarget d center target = some () := by
  have hmax : intMax = 2147483647 := rfl
  have hframes := hc.frames_le
  have hr := hc.radius_pos
  have hr' := hc.radius_le
  have hcell : mod target (2 * d.radius + 1) = some (target % (2 * d.radius + 1)) :=
    mod_of_nonneg (by omega) (by omega) (by omega)
  have hoffset : sub target center = some (target - center) := ofInt_eq (by omega) (by omega)
  have hslice : add (target - center) d.radius = some (target - center + d.radius) :=
    ofInt_eq (by omega) (by omega)
  simp only [addTarget, hoffset, hslice, ntemp_eq hc, hcell, Option.bind_eq_bind, Option.bind_some]

theorem runCenter_keeps (hc : Clip d) (h0 : 0 ≤ start) (hfin : fin ≤ d.numFrames) (hcenter : 0 ≤ center)
    (hcenter' : center < d.numFrames) (hout : start ≤ out ∧ out ≤ fin) :
    ∃ out', runCenter d start fin out center = some out' ∧ start ≤ out' ∧ out' ≤ fin := by
  have hmax : intMax = 2147483647 := rfl
  have hframes := hc.frames_le
  have hr := hc.radius_pos
  have hr' := hc.radius_le
  have hslots : upTo 0 (2 * d.radius + 1 - 1) () (fun _ t => do
      let _ ← temporalSlotFrame center t d.radius d.numFrames
      some ()) = some () := by
    refine upTo_unit (by omega) (by omega) fun t ht ht' => ?_
    rw [temporalSlotFrame_eq hcenter hcenter' hframes ht (by omega) hr']
    rfl
  have hvalid : ∃ v, validSlots d center = some v := by
    simp (disch := omega) only [validSlots, add, sub, ofInt_bind]
    exact ⟨_, ofInt_eq (by omega) (by omega)⟩
  have hlow : sub center d.radius = some (center - d.radius) := ofInt_eq (by omega) (by omega)
  have htargets : upTo (max start (center - d.radius)) (NssFactory.temporalLast center d.radius d.numFrames) ()
      (fun _ target => addTarget d center target) = some () := by
    rw [NssFactory.temporalLast_eq]
    exact upTo_unit (by omega) (by omega) fun target ht ht' =>
      addTarget_eq hc hcenter hcenter' (by omega) (by omega) (by omega)
  obtain ⟨v, hvalid⟩ := hvalid
  have hhigh : temporalLast center d.radius d.numFrames =
      some (NssFactory.temporalLast center d.radius d.numFrames) :=
    temporalLast_eq hcenter hcenter' hframes (by omega)
  simp only [runCenter, ntemp_eq hc, hvalid, hlow, hhigh, Option.bind_eq_bind, Option.bind_some] at hslots ⊢
  rw [hslots, Option.bind_some, htargets, Option.bind_some]
  exact finish_keeps hc h0 hfin hout

/-- The bounds of the fill, without a limit on their values. -/
def fillBounds (d : Geometry) (start count : Int) (carry : Bool) : FillBounds where
  last := NssFactory.temporalLast (start + count - 1) d.radius d.numFrames
  first := if carry then NssFactory.temporalLast (start - 1) d.radius d.numFrames + 1 else max 0 (start - d.radius)
  carryFirst := start + count
  carryTargets := leftTargets d (start + count)

theorem fillFirst_eq (hc : Clip d) (hl : d.Legal start count) (hcarry : carry = true → 1 ≤ start) :
    fillFirst d start carry = some (fillBounds d start count carry).first := by
  have hmax : intMax = 2147483647 := rfl
  have hframes := hc.frames_le
  have hr := hc.radius_pos
  have hr' := hc.radius_le
  have h0 := hl.start_nonneg
  have hcount := hl.count_pos
  have hend := hl.end_le
  cases carry with
  | false =>
    have hlow : sub start d.radius = some (start - d.radius) := ofInt_eq (by omega) (by omega)
    simp [fillFirst, fillBounds, hlow]
  | true =>
    have h1 := hcarry rfl
    have hsub : sub start 1 = some (start - 1) := ofInt_eq (by omega) (by omega)
    have hrun : temporalLast (start - 1) d.radius d.numFrames =
        some (NssFactory.temporalLast (start - 1) d.radius d.numFrames) :=
      temporalLast_eq (by omega) (by omega) hframes (by omega)
    have hadd : add (NssFactory.temporalLast (start - 1) d.radius d.numFrames) 1 =
        some (NssFactory.temporalLast (start - 1) d.radius d.numFrames + 1) := by
      have := NssFactory.temporalLast_eq (start - 1) d.radius d.numFrames
      exact ofInt_eq (by omega) (by omega)
    simp [fillFirst, fillBounds, hsub, hrun, hadd]

theorem carriedTargets_eq {first n : Int} (h0 : 0 ≤ first) (h : first + n ≤ intMax) :
    carriedTargets first n = some () := by
  have hmax : intMax = 2147483647 := rfl
  refine upTo_unit (by omega) (by omega) fun i hi hi' => ?_
  have hadd : add first i = some (first + i) := ofInt_eq (by omega) (by omega)
  simp only [hadd, Option.bind_eq_bind, Option.bind_some]

/-- Where the last center's reach is an `int`, the whole fill is. -/
theorem fill_eq (hc : Clip d) (hl : d.Legal start count) (hcarry : carry = true → 1 ≤ start)
    (hfits : FillFits d start count) :
    rollingFillChunkCarried d start count carry = some (fillBounds d start count carry) := by
  have hmax : intMax = 2147483647 := rfl
  have hframes := hc.frames_le
  have hr := hc.radius_pos
  have hr' := hc.radius_le
  have h0 := hl.start_nonneg
  have hcount := hl.count_pos
  have hend := hl.end_le
  have hreach := hfits
  rw [FillFits, hmax] at hreach
  have hlast := NssFactory.temporalLast_eq (start + count - 1) d.radius d.numFrames
  have hbefore := NssFactory.temporalLast_eq (start - 1) d.radius d.numFrames
  have hleft : leftTargets d start ≤ d.numFrames - start := by
    rw [leftTargets]
    omega
  have hfirst0 : 0 ≤ (fillBounds d start count carry).first ∧
      (fillBounds d start count carry).first ≤ d.numFrames := by
    cases carry <;> simp only [fillBounds] <;> grind
  have hfin : add start count = some (start + count) := ofInt_eq (by omega) (by omega)
  have htail : sub (start + count) 1 = some (start + count - 1) := ofInt_eq (by omega) (by omega)
  have hrun : temporalLast (start + count - 1) d.radius d.numFrames =
      some (NssFactory.temporalLast (start + count - 1) d.radius d.numFrames) :=
    temporalLast_eq (by omega) (by omega) hframes (by omega)
  have hadd : add (NssFactory.temporalLast (start + count - 1) d.radius d.numFrames) d.radius =
      some (NssFactory.temporalLast (start + count - 1) d.radius d.numFrames + d.radius) :=
    ofInt_eq (by omega) (by omega)
  have hfinal : sub d.numFrames 1 = some (d.numFrames - 1) := ofInt_eq (by omega) (by omega)
  have hbehind : sub (min (NssFactory.temporalLast (start + count - 1) d.radius d.numFrames + d.radius)
      (d.numFrames - 1)) (start + count) = some (min (NssFactory.temporalLast (start + count - 1)
        d.radius d.numFrames + d.radius) (d.numFrames - 1) - (start + count)) :=
    ofInt_eq (by omega) (by omega)
  have htargets : add (min (NssFactory.temporalLast (start + count - 1) d.radius d.numFrames + d.radius)
      (d.numFrames - 1) - (start + count)) 1 = some (min (NssFactory.temporalLast (start + count - 1)
        d.radius d.numFrames + d.radius) (d.numFrames - 1) - (start + count) + 1) :=
    ofInt_eq (by omega) (by omega)
  have hring : carriedTargets start (if carry then leftTargets d start else 0) = some () :=
    carriedTargets_eq h0 (by split <;> omega)
  have hprev : sub (fillBounds d start count carry).first 1 =
      some ((fillBounds d start count carry).first - 1) := ofInt_eq (by omega) (by omega)
  obtain ⟨out, hout, hout'⟩ : ∃ out, finish d start (start + count) ((fillBounds d start count carry).first - 1)
      (start + count - start).toNat start = some out ∧ start ≤ out ∧ out ≤ start + count :=
    finish_keeps hc h0 hend (by omega)
  obtain ⟨out', hloop, -⟩ : ∃ out', upTo (fillBounds d start count carry).first
      (NssFactory.temporalLast (start + count - 1) d.radius d.numFrames) out
        (runCenter d start (start + count)) = some out' ∧ start ≤ out' ∧ out' ≤ start + count := by
    refine upTo_keeps _ hfirst0.1 (by omega) hout' fun out center hcenter hcenter' hout => ?_
    exact runCenter_keeps hc h0 hend (by omega) (by omega) hout
  have hleave : carriedTargets (start + count) (leftTargets d (start + count)) = some () :=
    carriedTargets_eq (by omega) (by rw [leftTargets]; omega)
  have hsame : leftTargets d (start + count) = max 0 (min (NssFactory.temporalLast (start + count - 1) d.radius
      d.numFrames + d.radius) (d.numFrames - 1) - (start + count) + 1) := rfl
  simp only [rollingFillChunkCarried, hfin, htail, hrun, hadd, hfinal, hbehind, htargets, hring, hprev, hout,
    hloop, fillFirst_eq hc hl hcarry, ← hsame, hleave, Option.bind_eq_bind, Option.bind_some]
  rfl

/-- Elsewhere the sum of the last center and the radius overflows before it is clipped. -/
theorem fill_none (hc : Clip d) (hl : d.Legal start count) (hcarry : carry = true → 1 ≤ start)
    (hfits : ¬FillFits d start count) : rollingFillChunkCarried d start count carry = none := by
  have hmax : intMax = 2147483647 := rfl
  have hframes := hc.frames_le
  have hr := hc.radius_pos
  have h0 := hl.start_nonneg
  have hcount := hl.count_pos
  have hend := hl.end_le
  have hlast := NssFactory.temporalLast_eq (start + count - 1) d.radius d.numFrames
  rw [FillFits, ← hlast] at hfits
  have hfin : add start count = some (start + count) := ofInt_eq (by omega) (by omega)
  have htail : sub (start + count) 1 = some (start + count - 1) := ofInt_eq (by omega) (by omega)
  have hrun : temporalLast (start + count - 1) d.radius d.numFrames =
      some (NssFactory.temporalLast (start + count - 1) d.radius d.numFrames) :=
    temporalLast_eq (by omega) (by omega) hframes (by omega)
  have hadd : add (NssFactory.temporalLast (start + count - 1) d.radius d.numFrames) d.radius = none :=
    ofInt_eq_none.mpr fun h => hfits h.2
  simp only [rollingFillChunkCarried, hfin, htail, hrun, hadd, fillFirst_eq hc hl hcarry,
    Option.bind_eq_bind, Option.bind_some, Option.bind_none]

end Fill

/-! ## The walk -/

/-- The chunks that `walk_chunk` can walk in `int`. -/
structure WalkFits (d : Geometry) (start count : Int) (carry : Bool) : Prop where
  center : start + count - 1 + d.radius ≤ intMax
  carried : carry = true → start - 1 + 3 * d.radius ≤ intMax
  ahead : d.twoStage = true → (carry = true → start + d.radius ≤ d.numFrames - 1) →
    min (start + count - 1 + d.radius) (d.numFrames - 1) + d.radius ≤ intMax
  estimates : d.twoStage = true → (carry = true → start + 2 * d.radius ≤ d.numFrames - 1) →
    min (start + count - 1 + 2 * d.radius) (d.numFrames - 1) + d.radius ≤ intMax

section Walks

variable {d : Geometry} {start count fin f : Int} {carry : Bool} {w : Walk}

theorem reach_eq (hc : Clip d) {x : Int} (h0 : 0 ≤ x) (h : x + d.radius ≤ intMax) :
    reach d x = some (min (x + d.radius) d.last) := by
  have hmax : intMax = 2147483647 := rfl
  have hpos := hc.frames_pos
  have hframes := hc.frames_le
  have hr := hc.radius_pos
  have hsum : add x d.radius = some (x + d.radius) := ofInt_eq (by omega) (by omega)
  have hlast : sub d.numFrames 1 = some d.last := ofInt_eq (by omega) (by omega)
  simp only [reach, hsum, hlast, Option.bind_eq_bind, Option.bind_some]

theorem basicCenters_eq {hi : Int} (h0 : 0 ≤ w.center) (hhi : hi < intMax) :
    basicCenters hi w = some (Geometry.basicCenters hi w) ∧
      (Geometry.basicCenters hi w).frame = w.frame ∧ (Geometry.basicCenters hi w).out = w.out ∧
      0 ≤ (Geometry.basicCenters hi w).center := by
  refine upTo_eq (fun (w : Walk) c => { w with center := c + 1, visits := w.visits ++ [Visit.basicCenter c w.frame] })
    (fun w' : Walk => w'.frame = w.frame ∧ w'.out = w.out ∧ 0 ≤ w'.center) h0 hhi ⟨rfl, rfl, h0⟩ ?_
  intro s x hx _ hs
  exact ⟨rfl, hs.1, hs.2.1, by simp only; omega⟩

/-- The first stage stays in range where the reach of its frames does. -/
theorem basicFrames_eq (hc : Clip d) {first : Int} (h0 : 0 ≤ first) (hf : 0 ≤ f)
    (hreach : f + d.radius ≤ intMax)
    (hahead : ∀ x, first ≤ x → x ≤ min (f + d.radius) d.last → x + d.radius ≤ intMax)
    (hframe : first ≤ w.frame) (hcenter : 0 ≤ w.center) :
    basicFrames d f w = some (d.basicFrames f w) ∧ first ≤ (d.basicFrames f w).frame ∧
      0 ≤ (d.basicFrames f w).center ∧ (d.basicFrames f w).out = w.out := by
  have hmax : intMax = 2147483647 := rfl
  have hlast : d.last = d.numFrames - 1 := rfl
  have hframes := hc.frames_le
  rw [basicFrames, reach_eq hc hf hreach]
  refine upTo_eq (fun (w : Walk) frame =>
      let w := Geometry.basicCenters (min (frame + d.radius) d.last) w
      { w with frame := frame + 1, visits := w.visits ++ [Visit.basicFrame frame] })
    (fun w' : Walk => first ≤ w'.frame ∧ 0 ≤ w'.center ∧ w'.out = w.out)
    (by omega) (by omega) ⟨hframe, hcenter, rfl⟩ ?_
  intro s x hx hx' hs
  obtain ⟨hrun, -, hout, hcenter⟩ := basicCenters_eq (w := s)
    (show 0 ≤ s.center from hs.2.1) (show min (x + d.radius) d.last < intMax by omega)
  simp only [basicFrame, reach_eq hc (show 0 ≤ x by omega) (hahead x (by omega) hx'), hrun,
    Option.bind_eq_bind, Option.bind_some]
  exact ⟨trivial, by omega, hcenter, hout.trans hs.2.2⟩

/-- The outputs stay in range where the reach of the chunk does. -/
theorem outputs_eq (hc : Clip d) (hreach : fin - 1 + d.radius ≤ intMax) {fuel : Nat} (h0 : 0 ≤ w.out)
    (hfuel : fin - w.out ≤ fuel) :
    outputs d fin f fuel w = some (d.outputs fin f w) ∧ w.out ≤ (d.outputs fin f w).out ∧
      (d.outputs fin f w).frame = w.frame ∧ (d.outputs fin f w).center = w.center := by
  have hmax : intMax = 2147483647 := rfl
  have hr := hc.radius_pos
  induction fuel generalizing w with
  | zero =>
    have hempty : d.outputs fin f w = w := by
      rw [Geometry.outputs, Loops.range_empty (by omega)]
      rfl
    rw [hempty]
    exact ⟨rfl, Int.le_refl _, rfl, rfl⟩
  | succ fuel ih =>
    by_cases hlt : w.out < fin
    · rw [outputs, if_pos hlt, reach_eq hc h0 (by omega)]
      simp only [Option.bind_eq_bind, Option.bind_some]
      by_cases hle : min (w.out + d.radius) d.last ≤ f
      · have hnext : add w.out 1 = some (w.out + 1) := ofInt_eq (by omega) (by omega)
        have hrest := @ih { w with out := w.out + 1, visits := w.visits ++ [Visit.output w.out] }
          (by simp only; omega) (by simp only; omega)
        have hsame : d.outputs fin f w =
            d.outputs fin f { w with out := w.out + 1, visits := w.visits ++ [Visit.output w.out] } := by
          rw [Geometry.outputs, Loops.range_cons hlt, List.takeWhile_cons_of_pos (by simpa using hle)]
          rfl
        rw [if_pos hle, hnext, hsame]
        exact ⟨hrest.1, by have := hrest.2.1; simp only at this; omega, hrest.2.2⟩
      · have hempty : d.outputs fin f w = w := by
          rw [Geometry.outputs, Loops.range_cons hlt, List.takeWhile_cons_of_neg (by simpa using hle)]
          rfl
        rw [if_neg hle, hempty]
        exact ⟨rfl, Int.le_refl _, rfl, rfl⟩
    · have hempty : d.outputs fin f w = w := by
        rw [Geometry.outputs, Loops.range_empty (by omega)]
        rfl
      rw [outputs, if_neg hlt, hempty]
      exact ⟨rfl, Int.le_refl _, rfl, rfl⟩

/-- Where the cursors of a walk are: no frame before `first`. -/
def Ahead (first : Int) (w : Walk) : Prop := first ≤ w.frame ∧ 0 ≤ w.center ∧ 0 ≤ w.out

theorem walkCenter_eq (hc : Clip d) {first : Int} (h0 : 0 ≤ first) (hf : 0 ≤ f)
    (hreach : fin - 1 + d.radius ≤ intMax)
    (htwo : d.twoStage = true → f + d.radius ≤ intMax ∧
      ∀ x, first ≤ x → x ≤ min (f + d.radius) d.last → x + d.radius ≤ intMax) (hw : Ahead first w) :
    walkCenter d fin w f = some (d.walkCenter fin w f) ∧ Ahead first (d.walkCenter fin w f) := by
  obtain ⟨hframe, hcenter, hout⟩ := hw
  have hfirst : firstStage d f w =
      some (if d.twoStage then d.basicFrames f w else w) ∧
      Ahead first (if d.twoStage then d.basicFrames f w else w) := by
    rw [firstStage]
    cases hd : d.twoStage with
    | false => exact ⟨rfl, hframe, hcenter, hout⟩
    | true =>
      obtain ⟨hrun, hframe', hcenter', hout'⟩ :=
        basicFrames_eq hc h0 hf (htwo hd).1 (htwo hd).2 hframe hcenter
      exact ⟨hrun, hframe', hcenter', hout' ▸ hout⟩
  rw [walkCenter, Geometry.walkCenter, hfirst.1]
  generalize (if d.twoStage then d.basicFrames f w else w) = w' at hfirst
  obtain ⟨-, hframe', hcenter', hout'⟩ := hfirst
  obtain ⟨hrun, hle, hsame, hsame'⟩ := outputs_eq (f := f)
    (w := { w' with visits := w'.visits ++ [Visit.center f w'.out] }) hc hreach
    (show (0 : Int) ≤ w'.out from hout') (show fin - w'.out ≤ ((fin - w'.out).toNat : Nat) by omega)
  refine ⟨hrun, ?_⟩
  have hle : w'.out ≤ _ := hle
  exact ⟨by rw [hsame]; exact hframe', by rw [hsame']; exact hcenter', by omega⟩

theorem firstCenter_eq (hc : Clip d) (hl : d.Legal start count)
    (hcenter : start + count - 1 + d.radius ≤ intMax) :
    firstCenter d start (d.lastCenter start count) carry = some (d.firstCenter start count carry) := by
  have hmax : intMax = 2147483647 := rfl
  have hframes := hc.frames_le
  have hr := hc.radius_pos
  have hr' := hc.radius_le
  have h0 := hl.start_nonneg
  have hcount := hl.count_pos
  have hend := hl.end_le
  have hlast : d.lastCenter start count = min (start + count - 1 + d.radius) (d.numFrames - 1) := rfl
  cases carry with
  | false =>
    have hlow : sub start d.radius = some (start - d.radius) := ofInt_eq (by omega) (by omega)
    simp [firstCenter, Geometry.firstCenter, hlow]
  | true =>
    have hnext : add start d.radius = some (start + d.radius) := ofInt_eq (by omega) (by omega)
    have hpast : add (d.lastCenter start count) 1 = some (d.lastCenter start count + 1) :=
      ofInt_eq (by omega) (by omega)
    simp [firstCenter, Geometry.firstCenter, hnext, hpast]

theorem firstOf_fresh {n x : Int} (hc : Clip d) (h0 : 0 ≤ x) (h : x ≤ intMax) :
    firstOf d n start x false = some (max 0 (x - d.radius)) := by
  have hmax : intMax = 2147483647 := rfl
  have hr := hc.radius_pos
  have hr' := hc.radius_le
  have hlow : sub x d.radius = some (x - d.radius) := ofInt_eq (by omega) (by omega)
  simp [firstOf, hlow]

theorem firstOf_carry {n x : Int} (hc : Clip d) (h1 : 1 ≤ start) (hstart : start < d.numFrames) (hn : 0 ≤ n)
    (hn' : n ≤ 3) (hfits : start - 1 + n * d.radius ≤ intMax) :
    firstOf d n start x true = some (min (start - 1 + n * d.radius) d.last + 1) := by
  have hmax : intMax = 2147483647 := rfl
  have hframes := hc.frames_le
  have hr := hc.radius_pos
  have hr' := hc.radius_le
  have hnr : n * d.radius ≤ 3 * 16 := Int.mul_le_mul hn' hr' (by omega) (by omega)
  have hnr0 : 0 ≤ n * d.radius := Int.mul_nonneg hn (by omega)
  have hlast : d.last = d.numFrames - 1 := rfl
  have hbefore : sub start 1 = some (start - 1) := ofInt_eq (by omega) (by omega)
  have hradii : mul n d.radius = some (n * d.radius) := ofInt_eq (by omega) (by omega)
  have hsum : add (start - 1) (n * d.radius) = some (start - 1 + n * d.radius) := ofInt_eq (by omega) (by omega)
  have hfinal : sub d.numFrames 1 = some d.last := ofInt_eq (by omega) (by omega)
  have hadd : add (min (start - 1 + n * d.radius) d.last) 1 = some (min (start - 1 + n * d.radius) d.last + 1) :=
    ofInt_eq (by omega) (by omega)
  simp [firstOf, hbefore, hradii, hsum, hfinal, hadd]

theorem visits_outputs (l : List Int) (w : Walk) :
    (l.foldl (fun (w : Walk) out => { w with visits := w.visits ++ [Visit.output out] }) w).visits =
      w.visits ++ l.map .output := by
  induction l generalizing w with
  | nil => simp
  | cons out l ih => simp [ih]

theorem restOutputs_eq (h0 : 0 ≤ w.out) (hfin : fin ≤ intMax) :
    ∃ w', restOutputs fin w = some w' ∧ w'.visits = w.visits ++ (Int.range w.out fin).map .output := by
  obtain ⟨hrun, -⟩ := upTo_eq (fun (w : Walk) out => { w with visits := w.visits ++ [Visit.output out] })
    (fun _ => True) h0 (show fin - 1 < intMax by omega) (s := w) trivial fun w out _ _ _ => ⟨rfl, trivial⟩
  exact ⟨_, hrun, by rw [visits_outputs, Int.sub_add_cancel]⟩

/-- The walk after its last center. -/
def centers (d : Geometry) (start count : Int) (carry : Bool) : Walk :=
  (Int.range (d.firstCenter start count carry) (d.lastCenter start count + 1)).foldl
    (d.walkCenter (start + count))
    ⟨d.firstFrame start count carry, d.firstBasic start count carry, start, []⟩

/-- Where the reaches it adds up fit, the walk is the one without limits. -/
theorem walk_eq (hc : Clip d) (hl : d.Legal start count) (hcarry : carry = true → 1 ≤ start)
    (hfits : WalkFits d start count carry) :
    walkChunk d start count carry = some (d.walkChunk start count carry) := by
  have hmax : intMax = 2147483647 := rfl
  have hlast : d.last = d.numFrames - 1 := rfl
  have hframes := hc.frames_le
  have hr := hc.radius_pos
  have hr' := hc.radius_le
  have h0 := hl.start_nonneg
  have hcount := hl.count_pos
  have hend := hl.end_le
  have hcenter := hfits.center
  have hlc : d.lastCenter start count = min (start + count - 1 + d.radius) d.last := rfl
  have hfin : add start count = some (start + count) := ofInt_eq (by omega) (by omega)
  have htail : sub (start + count) 1 = some (start + count - 1) := ofInt_eq (by omega) (by omega)
  have hreach : reach d (start + count - 1) = some (d.lastCenter start count) :=
    reach_eq hc (by omega) hcenter
  have hfc : 0 ≤ d.firstCenter start count carry ∧ d.firstCenter start count carry ≤ intMax := by
    cases carry <;> simp only [Geometry.firstCenter] <;> grind
  have hframe : firstOf d 2 start (d.firstCenter start count carry) carry =
      some (d.firstFrame start count carry) ∧ 0 ≤ d.firstFrame start count carry ∧
      d.firstFrame start count carry ≤ intMax := by
    cases carry with
    | false =>
      rw [firstOf_fresh hc hfc.1 hfc.2, Geometry.firstFrame, if_neg (by decide)]
      exact ⟨rfl, by omega, by omega⟩
    | true =>
      have h3 := hfits.carried rfl
      have h1 := hcarry rfl
      rw [firstOf_carry hc h1 (by omega) (by omega) (by omega) (by omega), Geometry.firstFrame, if_pos rfl]
      exact ⟨rfl, by omega, by omega⟩
  have hbasic : firstOf d 3 start (d.firstFrame start count carry) carry =
      some (d.firstBasic start count carry) ∧ 0 ≤ d.firstBasic start count carry := by
    cases carry with
    | false =>
      rw [firstOf_fresh hc hframe.2.1 hframe.2.2, Geometry.firstBasic, if_neg (by decide)]
      exact ⟨rfl, by omega⟩
    | true =>
      have h3 := hfits.carried rfl
      have h1 := hcarry rfl
      rw [firstOf_carry hc h1 (by omega) (by omega) (by omega) h3, Geometry.firstBasic, if_pos rfl]
      exact ⟨rfl, by omega⟩
  have htwo : ∀ f, d.firstCenter start count carry ≤ f → f ≤ d.lastCenter start count →
      d.twoStage = true → f + d.radius ≤ intMax ∧
        ∀ x, d.firstFrame start count carry ≤ x → x ≤ min (f + d.radius) d.last → x + d.radius ≤ intMax := by
    intro f hf hf' h2
    have hahead := hfits.ahead h2
    have hestimates := hfits.estimates h2
    cases carry with
    | false =>
      have hahead := hahead (by rintro ⟨⟩)
      have hestimates := hestimates (by rintro ⟨⟩)
      exact ⟨by omega, fun x _ hx => by omega⟩
    | true =>
      rw [Geometry.firstCenter, if_pos rfl] at hf
      have hahead := hahead fun _ => by omega
      refine ⟨by omega, fun x hx hx' => ?_⟩
      rw [Geometry.firstFrame, if_pos rfl] at hx
      have hestimates := hestimates fun _ => by omega
      omega
  obtain ⟨hloop, hw⟩ : upTo (d.firstCenter start count carry) (d.lastCenter start count)
      ⟨d.firstFrame start count carry, d.firstBasic start count carry, start, []⟩
      (walkCenter d (start + count)) = some (centers d start count carry) ∧
      Ahead (d.firstFrame start count carry) (centers d start count carry) := by
    refine upTo_eq (d.walkCenter (start + count)) _ hfc.1 (by omega) ⟨Int.le_refl _, hbasic.2, h0⟩ ?_
    exact fun w f hf hf' hw => walkCenter_eq hc hframe.2.1 (by omega) hcenter (htwo f hf hf') hw
  obtain ⟨w, hrest, hvisits⟩ := restOutputs_eq hw.2.2 (show start + count ≤ intMax by omega)
  simp only [walkChunk, hfin, htail, hreach, firstCenter_eq hc hl hcenter, hframe.1, hbasic.1, hloop, hrest,
    Option.bind_eq_bind, Option.bind_some, hvisits]
  rfl

/-! ## What overflows -/

theorem reach_some {x hi : Int} (h : reach d x = some hi) : x + d.radius ≤ intMax ∧ hi = min (x + d.radius) d.last := by
  obtain ⟨sum, hsum, h⟩ := bind_eq_some.mp h
  obtain ⟨last, hlast, h⟩ := bind_eq_some.mp h
  obtain ⟨hfits, rfl⟩ := ofInt_eq_some.mp hsum
  obtain ⟨-, rfl⟩ := ofInt_eq_some.mp hlast
  exact ⟨hfits.2, (Option.some.inj h).symm⟩

theorem basicFrame_some {w' : Walk} {x : Int} (h : basicFrame d w x = some w') :
    x + d.radius ≤ intMax ∧ w'.frame = x + 1 := by
  obtain ⟨hi, hhi, h⟩ := bind_eq_some.mp h
  obtain ⟨w₁, -, h⟩ := bind_eq_some.mp h
  obtain rfl := Option.some.inj h
  exact ⟨(reach_some hhi).1, rfl⟩

/-- The reaches that a round of the first stage adds up, and where it stops. -/
theorem basicFrames_some {w' : Walk} (h : basicFrames d f w = some w') :
    f + d.radius ≤ intMax ∧
      (∀ x, w.frame ≤ x → x ≤ min (f + d.radius) d.last → x + d.radius ≤ intMax) ∧
      w.frame ≤ w'.frame ∧ min (f + d.radius) d.last + 1 ≤ w'.frame ∧
      (w'.frame = w.frame ∨ w'.frame = min (f + d.radius) d.last + 1) := by
  obtain ⟨hi, hhi, h⟩ := bind_eq_some.mp h
  obtain ⟨hfits, rfl⟩ := reach_some hhi
  by_cases hle : w.frame ≤ min (f + d.radius) d.last + 1
  · obtain ⟨hall, hframe⟩ := upTo_induct
      (fun x s => (∀ y, w.frame ≤ y → y < x → y + d.radius ≤ intMax) ∧ s.frame = x) hle h
      ⟨fun y hy hy' => by omega, rfl⟩ (by
        intro s s' x _ _ hs hround
        obtain ⟨hx, hframe⟩ := basicFrame_some hround
        refine ⟨fun y hy hy' => ?_, hframe⟩
        by_cases hyx : y = x
        · exact hyx ▸ hx
        · exact hs.1 y hy (by omega))
    exact ⟨hfits, fun x hx hx' => hall x hx (by omega), by omega, by omega, .inr hframe⟩
  · rw [upTo, Loops.range_empty (by omega)] at h
    obtain rfl := Option.some.inj h
    exact ⟨hfits, fun x hx hx' => by omega, Int.le_refl _, by omega, .inl rfl⟩

theorem outputs_frame {fuel : Nat} {w' : Walk} (h : outputs d fin f fuel w = some w') : w'.frame = w.frame := by
  induction fuel generalizing w with
  | zero => exact Option.some.inj h ▸ rfl
  | succ fuel ih =>
    rw [outputs] at h
    by_cases hlt : w.out < fin
    · rw [if_pos hlt] at h
      obtain ⟨hi, -, h⟩ := bind_eq_some.mp h
      by_cases hle : hi ≤ f
      · rw [if_pos hle] at h
        obtain ⟨next, -, h⟩ := bind_eq_some.mp h
        have hrest := ih h
        exact hrest
      · rw [if_neg hle] at h
        exact Option.some.inj h ▸ rfl
    · rw [if_neg hlt] at h
      exact Option.some.inj h ▸ rfl

/-- What a center of a walk of two stages shows. -/
theorem walkCenter_some {w' : Walk} (h2 : d.twoStage = true) (h : walkCenter d fin w f = some w') :
    ∃ w₁, basicFrames d f w = some w₁ ∧ w'.frame = w₁.frame := by
  obtain ⟨w₁, hfirst, h⟩ := bind_eq_some.mp h
  rw [firstStage, if_pos h2] at hfirst
  have hframe := outputs_frame h
  exact ⟨w₁, hfirst, hframe⟩

/-- A walk that stays in range adds up no reach that does not fit. -/
theorem walk_fits (hc : Clip d) (hl : d.Legal start count) (hcarry : carry = true → 1 ≤ start)
    {visits : List Visit} (h : walkChunk d start count carry = some visits) : WalkFits d start count carry := by
  have hlast : d.last = d.numFrames - 1 := rfl
  have hlc : d.lastCenter start count = min (start + count - 1 + d.radius) d.last := rfl
  have hframes := hc.frames_le
  have hr := hc.radius_pos
  have h0 := hl.start_nonneg
  have hcount := hl.count_pos
  have hend := hl.end_le
  obtain ⟨fin, hfin, h⟩ := bind_eq_some.mp h
  obtain ⟨tail, htail, h⟩ := bind_eq_some.mp h
  obtain ⟨lastCenter, hlastCenter, h⟩ := bind_eq_some.mp h
  obtain ⟨first, hfirst, h⟩ := bind_eq_some.mp h
  obtain ⟨frame, hframe, h⟩ := bind_eq_some.mp h
  obtain ⟨center, hcenter, h⟩ := bind_eq_some.mp h
  obtain ⟨w, hloop, -⟩ := bind_eq_some.mp h
  obtain ⟨-, rfl⟩ := ofInt_eq_some.mp hfin
  obtain ⟨-, rfl⟩ := ofInt_eq_some.mp htail
  obtain ⟨hreach, hsame⟩ := reach_some hlastCenter
  obtain rfl : lastCenter = d.lastCenter start count := hsame
  rw [firstCenter_eq hc hl hreach] at hfirst
  obtain rfl := Option.some.inj hfirst
  have hcarried : carry = true → start - 1 + 3 * d.radius ≤ intMax := by
    rintro rfl
    rw [firstOf, if_pos rfl] at hcenter
    obtain ⟨before, hbefore, hcenter⟩ := bind_eq_some.mp hcenter
    obtain ⟨radii, hradii, hcenter⟩ := bind_eq_some.mp hcenter
    obtain ⟨sum, hsum, -⟩ := bind_eq_some.mp hcenter
    obtain ⟨-, rfl⟩ := ofInt_eq_some.mp hbefore
    obtain ⟨-, rfl⟩ := ofInt_eq_some.mp hradii
    exact (ofInt_eq_some.mp hsum).1.2
  refine ⟨hreach, hcarried, ?_, ?_⟩
  · intro h2 hahead
    have hround : d.firstCenter start count carry ≤ d.lastCenter start count := by
      cases carry <;> simp only [Geometry.firstCenter] <;> grind
    obtain ⟨s, s', hs⟩ := upTo_round hloop hround (Int.le_refl _)
    obtain ⟨w₁, hframes', -⟩ := walkCenter_some h2 hs
    exact (basicFrames_some hframes').1
  · intro h2 hestimates
    have hround : d.firstCenter start count carry ≤ d.lastCenter start count := by
      cases carry <;> simp only [Geometry.firstCenter] <;> grind
    have hstart : frame ≤ min (start + count - 1 + 2 * d.radius) d.last := by
      cases carry with
      | false =>
        obtain ⟨low, hlow, hframe⟩ := bind_eq_some.mp hframe
        obtain ⟨-, rfl⟩ := ofInt_eq_some.mp hlow
        obtain rfl := Option.some.inj hframe
        simp only [Geometry.firstCenter] at hround ⊢
        omega
      | true =>
        have hestimates := hestimates rfl
        have h3 := hcarried rfl
        rw [firstOf_carry hc (hcarry rfl) (by omega) (by omega) (by omega) (by omega)] at hframe
        obtain rfl := Option.some.inj hframe
        omega
    -- after center `f - 1` every frame up to its reach is estimated, and its own reach added up
    obtain ⟨hall, hdone⟩ := upTo_induct
      (fun f (s : Walk) => (∀ x, frame ≤ x → x < s.frame → x + d.radius ≤ intMax) ∧
        (d.firstCenter start count carry < f → min (f - 1 + d.radius) d.last + 1 ≤ s.frame))
      (by omega) hloop ⟨fun x hx hx' => by simp only at hx'; omega, fun hlt => by omega⟩ (by
        intro s s' x _ _ hs hcenter
        obtain ⟨w₁, hframes', hframe'⟩ := walkCenter_some h2 hcenter
        obtain ⟨-, hadded, hle, hfar, hstop⟩ := basicFrames_some hframes'
        rw [hframe']
        refine ⟨fun y hy hy' => ?_, fun _ => by rw [Int.add_sub_cancel]; exact hfar⟩
        by_cases hys : y < s.frame
        · exact hs.1 y hy hys
        · exact hadded y (by omega) (by omega))
    have hdone := hdone (by omega)
    rw [Int.add_sub_cancel] at hdone
    exact hall _ hstart (by omega)

end Walks

/-! ## The chunk of a request -/

/-- `rolling_chunk_start` -/
def rollingChunkStart (n chunk : Int) : Int := n / chunk * chunk

def rollingChunkCount (d : Geometry) (n chunk : Int) : Int :=
  min chunk (d.numFrames - rollingChunkStart n chunk)

/-- The chunk of a frame of the clip is a chunk of the clip. -/
theorem legal_chunk {d : Geometry} (hc : Clip d) {n chunk : Int} (hchunk : 1 ≤ chunk) (h0 : 0 ≤ n)
    (h : n < d.numFrames) : d.Legal (rollingChunkStart n chunk) (rollingChunkCount d n chunk) := by
  have hle : rollingChunkStart n chunk ≤ n := Int.ediv_mul_le n (by omega)
  have hnonneg : 0 ≤ rollingChunkStart n chunk :=
    Int.mul_nonneg (Int.ediv_nonneg h0 (by omega)) (by omega)
  have hcount : rollingChunkCount d n chunk = min chunk (d.numFrames - rollingChunkStart n chunk) := rfl
  exact ⟨hc.radius_pos, hnonneg, by omega, by omega⟩

/-- No `int` expression of the helpers, of the fill and of the walk of a requested frame's
chunk leaves its range. -/
def InRange (d : Geometry) (n chunk : Int) (carry : Bool) : Prop :=
  (∀ center slot, 0 ≤ center → center < d.numFrames → 0 ≤ slot → slot ≤ 2 * d.radius →
    (temporalFirst center d.radius).isSome ∧ (temporalLast center d.radius d.numFrames).isSome ∧
      (temporalSlotFrame center slot d.radius d.numFrames).isSome) ∧
  (rollingFillChunkCarried d (rollingChunkStart n chunk) (rollingChunkCount d n chunk) carry).isSome ∧
  (walkChunk d (rollingChunkStart n chunk) (rollingChunkCount d n chunk) carry).isSome

/-- The helpers are always in range; the fill and the walk are exactly where the reaches they
add up before clipping are. -/
theorem inRange_iff (d : Geometry) (hc : Clip d) (n chunk : Int) (hchunk : 1 ≤ chunk) (h0 : 0 ≤ n)
    (h : n < d.numFrames) (carry : Bool) (hcarry : carry = true → 1 ≤ rollingChunkStart n chunk) :
    InRange d n chunk carry ↔
      FillFits d (rollingChunkStart n chunk) (rollingChunkCount d n chunk) ∧
      WalkFits d (rollingChunkStart n chunk) (rollingChunkCount d n chunk) carry := by
  have hl := legal_chunk hc hchunk h0 h
  have hr := hc.radius_pos
  have hframes := hc.frames_le
  constructor
  · rintro ⟨-, hfill, hwalk⟩
    refine ⟨?_, ?_⟩
    · by_contra hout
      rw [fill_none hc hl hcarry hout] at hfill
      exact absurd hfill (by simp)
    · obtain ⟨visits, hvisits⟩ := Option.isSome_iff_exists.mp hwalk
      exact walk_fits hc hl hcarry hvisits
  · rintro ⟨hfill, hwalk⟩
    refine ⟨fun center slot hcenter hcenter' hslot hslot' => ⟨?_, ?_, ?_⟩, ?_, ?_⟩
    · rw [temporalFirst_eq hcenter (by omega) (by omega)]
      rfl
    · rw [temporalLast_eq hcenter hcenter' hframes (by omega)]
      rfl
    · rw [temporalSlotFrame_eq hcenter hcenter' hframes hslot hslot' hc.radius_le]
      rfl
    · rw [fill_eq hc hl hcarry hfill]
      rfl
    · rw [walk_eq hc hl hcarry hwalk]
      rfl

/-- A clip of a hundred frames. -/
theorem inRange_short : InRange ⟨2, 100, true⟩ 99 4 true ↔
    FillFits ⟨2, 100, true⟩ (rollingChunkStart 99 4) (rollingChunkCount ⟨2, 100, true⟩ 99 4) ∧
    WalkFits ⟨2, 100, true⟩ (rollingChunkStart 99 4) (rollingChunkCount ⟨2, 100, true⟩ 99 4) true :=
  inRange_iff ⟨2, 100, true⟩ ⟨by decide, by decide, by decide, by decide⟩ 99 4 (by decide) (by decide)
    (by decide) true (fun _ => by decide)

/-- The last frame of the longest clip: both the fill and the walk overflow. -/
theorem not_inRange_longest : ∃ d : Geometry, Clip d ∧ d.numFrames = intMax ∧
    rollingFillChunkCarried d (rollingChunkStart (intMax - 1) 1) (rollingChunkCount d (intMax - 1) 1) false = none ∧
    walkChunk d (rollingChunkStart (intMax - 1) 1) (rollingChunkCount d (intMax - 1) 1) false = none ∧
    ¬InRange d (intMax - 1) 1 false := by
  have hwalk : walkChunk ⟨2, intMax, false⟩ (rollingChunkStart (intMax - 1) 1)
      (rollingChunkCount ⟨2, intMax, false⟩ (intMax - 1) 1) false = none := by decide
  refine ⟨⟨2, intMax, false⟩, ⟨by decide, by decide, by decide, by decide⟩, rfl, by decide, hwalk, ?_⟩
  rintro ⟨-, -, hsome⟩
  rw [hwalk] at hsome
  exact absurd hsome (by decide)

end NssFactory.Checked
