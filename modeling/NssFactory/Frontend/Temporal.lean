import Mathlib.Data.Int.Basic

/-!
# The temporal window of a frame

The helpers of `frontend/temporal.hpp`: the first and last frame within a radius of a
center, and the frame in slot `slot` of the window around it (slot `radius` is the center
itself), all clipped to the clip `0 … frames - 1`.
-/

namespace NssFactory

/-- `std::clamp`. -/
def clamp (v lo hi : Int) : Int := if v < lo then lo else if hi < v then hi else v

def temporalFirst (center radius : Int) : Int := center - min center radius

def temporalLast (center radius frames : Int) : Int := center + min radius (frames - 1 - center)

def temporalSlotFrame (center slot radius frames : Int) : Int :=
  center + clamp (slot - radius) (-center) (frames - 1 - center)

theorem temporalFirst_eq (center radius : Int) :
    temporalFirst center radius = max 0 (center - radius) := by
  unfold temporalFirst; omega

theorem temporalLast_eq (center radius frames : Int) :
    temporalLast center radius frames = min (center + radius) (frames - 1) := by
  unfold temporalLast; omega

theorem temporalSlotFrame_eq {center frames : Int} (slot radius : Int) (h : center < frames)
    (h0 : 0 ≤ center) :
    temporalSlotFrame center slot radius frames
      = max 0 (min (center - radius + slot) (frames - 1)) := by
  unfold temporalSlotFrame clamp
  split
  · omega
  · split <;> omega

/-- Every window slot holds a frame of the clip within the radius of the center. -/
theorem temporalSlotFrame_mem {center frames slot radius : Int} (h0 : 0 ≤ center)
    (h : center < frames) (hs : 0 ≤ slot) (hs' : slot ≤ 2 * radius) :
    max 0 (center - radius) ≤ temporalSlotFrame center slot radius frames ∧
      temporalSlotFrame center slot radius frames ≤ min (center + radius) (frames - 1) := by
  rw [temporalSlotFrame_eq slot radius h h0]
  omega

/-- Every frame of the clip within the radius of a center is in its own window slot. -/
theorem temporalSlotFrame_self {center frames radius fn : Int} (h0 : 0 ≤ fn) (h : fn < frames)
    (hc : 0 ≤ center) (hc' : center < frames) :
    temporalSlotFrame center (fn - center + radius) radius frames = fn := by
  rw [temporalSlotFrame_eq _ radius hc' hc]
  omega

end NssFactory
