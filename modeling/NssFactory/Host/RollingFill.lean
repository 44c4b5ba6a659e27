import Mathlib.Algebra.Order.Ring.Int
import NssFactory.Lib.SlidingSum
import NssFactory.Frontend.Temporal

/-!
# The CPU's rolling BM3D chunks

`rollingFillChunkCarried` of `host/filter_bm3d.cpp` finishes the frames of a chunk from a
ring of `2 * radius + 1` target sums per plane. A chunk starts afresh or carries on from
the sums that the chunk before it left (`RollingCarry`). `vaggSums` of
`host/filter_vaggregate.cpp` sums the slices of the fat clip that `bm3dGetFrame` makes.

The floats are any type with an addition, so the sums below are equal term by term and in
order, not only up to reassociation.
-/

namespace NssFactory.Bm3d

/-- The floats of one plane, in raster order. -/
abbrev Pixels (F : Type*) := Nat → F

/-- The arithmetic of floats. No law is assumed of it; `eps` is the source's `1e-12f`. -/
class FloatArith (F : Type*) extends Add F, Zero F, One F, Div F where
  lt : F → F → Bool
  eps : F

/-- A numerator and a denominator plane: a target's sums, or a slice that is added to them. -/
structure Sums (F : Type*) where
  num : Pixels F
  den : Pixels F

/-- The filter's clips and parameters. `processPlaneBatched plane srcs refs center slice` is
what the groups of a center add to one slice of a plane, from the window frames of its planes
(with `chroma` all of them, otherwise its own); `filters plane` says that the plane's sigma is
not zero. -/
structure Bm3dData (F : Type*) where
  radius : Int
  numFrames : Int
  chroma : Bool
  filters : Nat → Bool
  node : Int → Nat → Pixels F
  ref : Option (Int → Nat → Pixels F)
  processPlaneBatched :
    Nat → (Nat → Int → Pixels F) → (Nat → Int → Pixels F) → Int → Int → Sums F

/-- What the centers of one chunk added to the first `targets` frames from `start`. -/
structure RollingCarry (F : Type*) where
  start : Int
  targets : Int
  sums : Nat → Int → Sums F

/-- A chunk: `frames i plane` is the finished plane of frame `start + i`. -/
structure RollingChunkStore (F : Type*) where
  start : Int
  count : Int
  frames : Int → Nat → Option (Pixels F)

/-- One plane of a chunk while it is filled. -/
structure Filling (F : Type*) where
  sums : Int → Sums F
  nextOutput : Int
  frames : Int → Option (Pixels F)

variable {F : Type*} [FloatArith F]

def Sums.zero : Sums F := ⟨fun _ => 0, fun _ => 0⟩

def Sums.add (s c : Sums F) : Sums F := ⟨fun i => s.num i + c.num i, fun i => s.den i + c.den i⟩

def aggregateFinish (s : Sums F) (src : Pixels F) : Pixels F :=
  fun i => if FloatArith.lt FloatArith.eps (s.den i) then s.num i / s.den i else src i

namespace Bm3dData

variable (d : Bm3dData F)

def ntemp : Int := 2 * d.radius + 1

/-- The planes of the window frames of `center`. -/
def window (clip : Int → Nat → Pixels F) (center : Int) : Nat → Int → Pixels F :=
  fun plane t => clip (temporalSlotFrame center t d.radius d.numFrames) plane

/-- The slices of one center, as both the fat clip and the rolling chunks take them. -/
def slices (plane : Nat) (center : Int) : Int → Sums F :=
  d.processPlaneBatched plane (d.window d.node center) (d.window (d.ref.getD d.node) center) center

/-- Finishes the next frame: its cell is read, then zeroed for a later target. -/
def finishFrame (plane : Nat) (start : Int) (s : Filling F) : Filling F where
  sums := Function.update s.sums (s.nextOutput % d.ntemp) Sums.zero
  nextOutput := s.nextOutput + 1
  frames := Function.update s.frames (s.nextOutput - start)
    (some (aggregateFinish (s.sums (s.nextOutput % d.ntemp)) (d.node s.nextOutput plane)))

/-- Finishes the frames of the chunk whose last center is at or before `center`. -/
def finish (plane : Nat) (start count center : Int) (s : Filling F) : Filling F :=
  ((Int.range s.nextOutput (start + count)).takeWhile
    fun n => temporalLast n d.radius d.numFrames ≤ center).foldl
    (fun s _ => d.finishFrame plane start s) s

/-- Adds a center's slices to their targets, also to those behind the chunk. -/
def addSlices (start center : Int) (fat : Int → Sums F) (sums : Int → Sums F) : Int → Sums F :=
  (Int.range (max start (center - d.radius)) (temporalLast center d.radius d.numFrames + 1)).foldl
    (fun sums target => Function.update sums (target % d.ntemp)
      ((sums (target % d.ntemp)).add (fat (target - center + d.radius)))) sums

/-- One center of a chunk: its slices into the ring, then the frames it was the last of. -/
def runCenter (plane : Nat) (start count : Int) (s : Filling F) (center : Int) :
    Filling F :=
  d.finish plane start count center
    { s with sums := d.addSlices start center (d.slices plane center) s.sums }

/-- The first center of a chunk: behind those of the chunk it carries on from. -/
def firstCenter (start : Int) (carry : Bool) : Int :=
  if carry then temporalLast (start - 1) d.radius d.numFrames + 1 else max 0 (start - d.radius)

/-- The ring of a plane when its chunk starts: zero, or the sums of the carry. -/
def startRing (plane : Nat) (start : Int) (carry : Option (RollingCarry F)) : Int → Sums F :=
  match carry with
  | none => fun _ => Sums.zero
  | some c => (Int.range 0 c.targets).foldl
      (fun sums i => Function.update sums ((start + i) % d.ntemp) (c.sums plane i))
      (fun _ => Sums.zero)

/-- A plane of the chunk before its first center. -/
def startPlane (plane : Nat) (start count : Int) (carry : Option (RollingCarry F)) :
    Filling F :=
  d.finish plane start count (d.firstCenter start carry.isSome - 1)
    { sums := d.startRing plane start carry, nextOutput := start, frames := fun _ => none }

/-- A plane of the chunk after its centers below `upto`. -/
def runPlane (plane : Nat) (start count : Int) (carry : Option (RollingCarry F))
    (upto : Int) : Filling F :=
  (Int.range (d.firstCenter start carry.isSome) upto).foldl (d.runCenter plane start count)
    (d.startPlane plane start count carry)

/-- Fills the chunk `[start, start + count)` and returns what it leaves for the next. -/
def rollingFillChunkCarried (start count : Int) (carry : Option (RollingCarry F)) :
    RollingChunkStore F × Option (RollingCarry F) :=
  let last := temporalLast (start + count - 1) d.radius d.numFrames
  let carryFirst := start + count
  let carryTargets := max 0 (min (last + d.radius) (d.numFrames - 1) - carryFirst + 1)
  let filled := fun plane => d.runPlane plane start count carry (last + 1)
  let store : RollingChunkStore F :=
    { start, count
      frames := fun i plane =>
        if d.filters plane then (filled plane).frames i
        else if 0 ≤ i ∧ i < count then some (d.node (start + i) plane) else none }
  (store,
    if carryTargets > 0 then
      -- nothing reads the sums of a plane that is left alone
      some { start := carryFirst, targets := carryTargets
             sums := fun plane i => (filled plane).sums ((carryFirst + i) % d.ntemp) }
    else none)

/-- What a plane's centers add to its targets. -/
def sliding (plane : Nat) : Sliding (Sums F) (Sums F) where
  zero := Sums.zero
  add := Sums.add
  term c t := d.slices plane c (t - c + d.radius)
  radius := d.radius
  last := d.numFrames - 1

/-- A chunk of the clip. -/
structure Legal (start count : Int) : Prop where
  radius_pos : 1 ≤ d.radius
  start_nonneg : 0 ≤ start
  count_pos : 1 ≤ count
  end_le : start + count ≤ d.numFrames

/-- A plane of the chunk when `next` is its first unfinished frame and the centers below `e`
have run. -/
structure Filled (plane : Nat) (start count e : Int) (s : Filling F) : Prop where
  start_le : start ≤ s.nextOutput
  le_end : s.nextOutput ≤ start + count
  ring : (d.sliding plane).Open s.sums s.nextOutput e
  reach : e ≤ s.nextOutput + d.radius + 1
  near : s.nextOutput ≤ e + d.radius
  finished : ∀ n, start ≤ n → n < s.nextOutput →
    s.frames (n - start) =
      some (aggregateFinish ((d.sliding plane).total n) (d.node n plane))
  past : start < s.nextOutput → temporalLast (s.nextOutput - 1) d.radius d.numFrames < e
  not_due : s.nextOutput < start + count → e ≤ temporalLast s.nextOutput d.radius d.numFrames + 1

variable {d} {plane : Nat} {start count e : Int} {s : Filling F}
variable {carry : Option (RollingCarry F)}

omit [FloatArith F] in
theorem firstCenter_fresh : d.firstCenter start false = max 0 (start - d.radius) := rfl

omit [FloatArith F] in
theorem firstCenter_carry :
    d.firstCenter start true = temporalLast (start - 1) d.radius d.numFrames + 1 := rfl

theorem sliding_ring (d : Bm3dData F) (plane : Nat) : (d.sliding plane).ring = d.ntemp := rfl

theorem sliding_radius (d : Bm3dData F) (plane : Nat) : (d.sliding plane).radius = d.radius := rfl

theorem sliding_last (d : Bm3dData F) (plane : Nat) : (d.sliding plane).last = d.numFrames - 1 := rfl

/-- Finishing the frame whose last center has run. -/
theorem Filled.finishFrame (hl : d.Legal start count) (h : d.Filled plane start count e s)
    (hlt : s.nextOutput < start + count)
    (hdue : temporalLast s.nextOutput d.radius d.numFrames ≤ e - 1) :
    d.Filled plane start count e (d.finishFrame plane start s) := by
  have hr := hl.radius_pos
  have hend := hl.end_le
  have h0 := h.start_le
  have hreach := h.reach
  have hnd := h.not_due hlt
  have hnext : (d.finishFrame plane start s).nextOutput = s.nextOutput + 1 := rfl
  rw [temporalLast_eq] at hdue hnd
  have hsum : s.sums (s.nextOutput % d.ntemp) = (d.sliding plane).total s.nextOutput := by
    rw [← sliding_ring d plane]
    have hrad := sliding_radius d plane
    have hlst := sliding_last d plane
    apply h.ring.total <;> omega
  constructor
  · omega
  · omega
  · exact h.ring.finish (by rw [sliding_radius]; omega)
  · omega
  · omega
  · intro n hn0 hn1
    by_cases he : n = s.nextOutput
    · subst he
      simp only [Bm3dData.finishFrame, Function.update_self, hsum]
    · simp only [Bm3dData.finishFrame]
      rw [Function.update_of_ne (by omega)]
      exact h.finished n hn0 (by omega)
  · intro _
    rw [hnext, temporalLast_eq]
    omega
  · intro _
    rw [hnext, temporalLast_eq]
    omega

/-- After `finish` nothing is due: the next frame still waits for center `e`. -/
theorem Filled.finish (hl : d.Legal start count) (h : d.Filled plane start count e s) :
    d.Filled plane start count e (d.finish plane start count (e - 1) s) ∧
      ((d.finish plane start count (e - 1) s).nextOutput < start + count →
        e ≤ temporalLast (d.finish plane start count (e - 1) s).nextOutput
          d.radius d.numFrames) := by
  obtain ⟨hfilled, hnot⟩ := Loops.foldl_due_induct (d.Filled plane start count e)
    Filling.nextOutput (fun n => temporalLast n d.radius d.numFrames ≤ e - 1)
    (d.finishFrame plane start) h fun s hs hlt hdue =>
      ⟨hs.finishFrame hl hlt (of_decide_eq_true hdue), rfl⟩
  refine ⟨hfilled, fun hlt => ?_⟩
  have := of_decide_eq_false (hnot hlt)
  simp only [Bm3dData.finish] at this ⊢
  omega

/-- Before center `e` the next frame of the chunk waits for it. -/
structure Waiting (d : Bm3dData F) (plane : Nat) (start count e : Int) (s : Filling F) : Prop
    extends d.Filled plane start count e s where
  waits : s.nextOutput < start + count → e ≤ temporalLast s.nextOutput d.radius d.numFrames

theorem Filled.waiting (hl : d.Legal start count) (h : d.Filled plane start count e s) :
    Waiting d plane start count e (d.finish plane start count (e - 1) s) :=
  ⟨(h.finish hl).1, (h.finish hl).2⟩

theorem addSlices_eq (start center : Int) (sums : Int → Sums F) :
    d.addSlices start center (d.slices plane center) sums =
      (d.sliding plane).addCenter (max start (center - d.radius))
        (temporalLast center d.radius d.numFrames) center sums := rfl

/-- One center keeps the plane as it should be. -/
theorem Waiting.runCenter (hl : d.Legal start count) (h : Waiting d plane start count e s)
    (he : 0 ≤ e) (hlast : e ≤ temporalLast (start + count - 1) d.radius d.numFrames) :
    Waiting d plane start count (e + 1) (d.runCenter plane start count s e) := by
  have ⟨hr, _, hcount, hend⟩ := hl
  have h1 := h.start_le
  have h2 := h.le_end
  have hreach := h.reach
  have hnear := h.near
  have hpast := h.past
  have hwaits := h.waits
  rw [temporalLast_eq] at hlast hpast hwaits
  -- some frame of the chunk waits, since its last frame does
  have hlt : s.nextOutput < start + count := by
    rcases Int.lt_or_eq_of_le h2 with hlt | heq
    · exact hlt
    · have := hpast (by omega)
      rw [heq] at this
      omega
  have hw := hwaits hlt
  have hlo : max start (e - d.radius) = max s.nextOutput (e - d.radius) := by
    by_cases h0 : start < s.nextOutput
    · have := hpast h0
      omega
    · omega
  have hring : (d.sliding plane).Open
      (d.addSlices start e (d.slices plane e) s.sums) s.nextOutput (e + 1) := by
    rw [addSlices_eq, hlo, temporalLast_eq]
    have hrad := sliding_radius d plane
    have hlst := sliding_last d plane
    exact h.ring.addCenter (by omega) he (by omega) (by omega) (by omega)
  have hfilled : d.Filled plane start count (e + 1)
      { s with sums := d.addSlices start e (d.slices plane e) s.sums } := by
    constructor
    · exact h1
    · exact h2
    · exact hring
    · dsimp only; omega
    · dsimp only; omega
    · exact h.finished
    · intro h0
      have := hpast h0
      rw [temporalLast_eq]
      dsimp only
      omega
    · intro _
      rw [temporalLast_eq]
      dsimp only
      omega
  have := hfilled.waiting hl
  rwa [Int.add_sub_cancel] at this

/-! ## Carries -/

/-- A carry for the chunk at `start` holds, for each of its targets, exactly what the centers
up to the chunk before add to it. -/
structure RightCarry (d : Bm3dData F) (start : Int) (c : RollingCarry F) : Prop where
  start_eq : c.start = start
  targets_eq : c.targets =
    max 0 (min (temporalLast (start - 1) d.radius d.numFrames + d.radius) (d.numFrames - 1)
      - start + 1)
  sums_eq : ∀ plane i, 0 ≤ i → i < c.targets →
    c.sums plane i = (d.sliding plane).sumBelow (start + i)
      (temporalLast (start - 1) d.radius d.numFrames + 1)

theorem startRing_some (c : RollingCarry F) :
    d.startRing plane start (some c) =
      putRange d.ntemp (fun t _ => c.sums plane (t - start)) start (start + c.targets - 1)
        (fun _ => Sums.zero) := by
  simp only [startRing, putRange]
  have hmap := Loops.range_map_add start 0 c.targets
  rw [Int.add_zero] at hmap
  rw [show start + c.targets - 1 + 1 = start + c.targets by omega, ← hmap, List.foldl_map]
  simp only [add_sub_cancel_left]

/-- A plane before its first center, whether the chunk starts afresh or carries on. -/
theorem startPlane_waiting (hl : d.Legal start count)
    (hc : ∀ c, carry = some c → 1 ≤ start ∧ RightCarry d start c) :
    Waiting d plane start count (d.firstCenter start carry.isSome)
      (d.startPlane plane start count carry) := by
  have ⟨hr, h0, hcount, hend⟩ := hl
  apply Filled.waiting hl
  cases carry with
  | none =>
    rw [Option.isSome_none, firstCenter_fresh]
    constructor
    · exact Int.le_refl _
    · dsimp only; omega
    · exact Sliding.open_zero _ (fun _ _ _ _ => rfl) (by simp only [sliding_radius]; omega)
    · dsimp only; omega
    · dsimp only; omega
    · intro n h1 h2
      dsimp only at h2
      omega
    · intro h1
      exact absurd h1 (by dsimp only; omega)
    · intro _
      rw [temporalLast_eq]
      dsimp only
      omega
  | some c =>
    obtain ⟨hs1, hright⟩ := hc c rfl
    have ht := hright.targets_eq
    rw [Option.isSome_some, firstCenter_carry]
    have hopen : (d.sliding plane).Open (d.startRing plane start (some c)) start
        (temporalLast (start - 1) d.radius d.numFrames + 1) := by
      intro t h1 h2 h3
      simp only [sliding_radius, sliding_last] at h2 h3
      have hring : (d.sliding plane).ring = 2 * d.radius + 1 := rfl
      rw [temporalLast_eq] at ht
      rw [startRing_some, ← sliding_ring d plane, putRange_cell _ _ t (by omega) (by omega)
        (by omega)]
      split
      · rw [hright.sums_eq plane _ (by omega) (by omega)]
        congr 1
        omega
      · rw [(d.sliding plane).sumBelow_zero]
        · rfl
        · rw [temporalLast_eq]
          simp only [sliding_radius]
          omega
    rw [temporalLast_eq] at hopen ⊢
    constructor
    · exact Int.le_refl _
    · dsimp only; omega
    · exact hopen
    · dsimp only; omega
    · dsimp only; omega
    · intro n h1 h2
      dsimp only at h2
      omega
    · intro h1
      exact absurd h1 (by dsimp only; omega)
    · intro _
      rw [temporalLast_eq]
      dsimp only
      omega

/-- A plane after its centers below `upto`. -/
theorem runPlane_waiting (plane : Nat) (hl : d.Legal start count)
    (hc : ∀ c, carry = some c → 1 ≤ start ∧ RightCarry d start c) {upto : Int}
    (h1 : d.firstCenter start carry.isSome ≤ upto)
    (h2 : upto ≤ temporalLast (start + count - 1) d.radius d.numFrames + 1) :
    Waiting d plane start count upto (d.runPlane plane start count carry upto) := by
  have h0 : 0 ≤ d.firstCenter start carry.isSome := by
    have ⟨hr, h0, _, hend⟩ := hl
    cases carry with
    | none =>
      rw [Option.isSome_none, firstCenter_fresh]
      omega
    | some c =>
      obtain ⟨hs1, -⟩ := hc c rfl
      rw [Option.isSome_some, firstCenter_carry, temporalLast_eq]
      omega
  apply Loops.foldl_range_induct (fun x s => Waiting d plane start count x s) _ h1
    (startPlane_waiting hl hc)
  intro x s hx hxu h
  exact h.runCenter hl (by omega) (by omega)

/-- What the centers below `upto` contribute to frame `n`: slice `n - c + radius` of each
center `c` within the radius, added to zero in ascending order. -/
def ownSum (d : Bm3dData F) (plane : Nat) (n upto : Int) : Sums F :=
  (Int.range (max 0 (n - d.radius)) upto).foldl
    (fun sums c => sums.add (d.slices plane c (n - c + d.radius))) Sums.zero

/-- After all its centers a chunk has finished its frames. -/
theorem runPlane_done (plane : Nat) (hl : d.Legal start count)
    (hc : ∀ c, carry = some c → 1 ≤ start ∧ RightCarry d start c) :
    let last := temporalLast (start + count - 1) d.radius d.numFrames
    Waiting d plane start count (last + 1) (d.runPlane plane start count carry (last + 1)) ∧
      (d.runPlane plane start count carry (last + 1)).nextOutput = start + count := by
  intro last
  have ⟨hr, h0, hcount, hend⟩ := hl
  have hfirst : d.firstCenter start carry.isSome ≤ last + 1 := by
    cases carry with
    | none => rw [Option.isSome_none, firstCenter_fresh]; simp only [last, temporalLast_eq]; omega
    | some c =>
      rw [Option.isSome_some, firstCenter_carry]
      simp only [last, temporalLast_eq]
      omega
  have hw := runPlane_waiting plane hl hc hfirst (Int.le_refl _)
  refine ⟨hw, ?_⟩
  have h1 := hw.le_end
  by_contra hne
  have h2 := hw.waits (by omega)
  simp only [last, temporalLast_eq] at h1 h2 hne
  omega

/-- What a chunk leaves is what the next chunk needs. -/
theorem rightCarry_next (hl : d.Legal start count)
    (hc : ∀ c, carry = some c → 1 ≤ start ∧ RightCarry d start c) {c : RollingCarry F}
    (h : (d.rollingFillChunkCarried start count carry).2 = some c) :
    RightCarry d (start + count) c := by
  simp only [rollingFillChunkCarried] at h
  split at h
  · obtain rfl := Option.some.inj h
    constructor
    · rfl
    · rfl
    · intro plane i hi0 hi1
      obtain ⟨hw, hnext⟩ := runPlane_done plane hl hc
      have hopen := hw.ring
      rw [hnext] at hopen
      have hrad := sliding_radius d plane
      have hlst := sliding_last d plane
      have ⟨hr, h0, hcount, hend⟩ := hl
      dsimp only at hi1
      rw [temporalLast_eq] at hi1
      exact hopen (start + count + i) (by omega) (by omega) (by omega)
  · cases h

/-- The carries of a run: each is left by a chunk that started afresh or carried on itself. -/
inductive Carried (d : Bm3dData F) : Int → RollingCarry F → Prop
  | left {start count : Int} {carry : Option (RollingCarry F)} {c : RollingCarry F}
      (legal : d.Legal start count) (taken : ∀ c', carry = some c' → Carried d start c')
      (leaves : (d.rollingFillChunkCarried start count carry).2 = some c) :
      Carried d (start + count) c

theorem Carried.right {c : RollingCarry F} (h : Carried d start c) :
    1 ≤ start ∧ RightCarry d start c := by
  induction h with
  | left hl _ leaves ih =>
    have := hl.start_nonneg
    have := hl.count_pos
    exact ⟨by omega, rightCarry_next hl ih leaves⟩

/-- A clip of five frames whose pixels are their frame numbers. -/
def counting : Bm3dData Int where
  radius := 1
  numFrames := 5
  chroma := false
  filters _ := true
  node n _ _ := n
  ref := none
  processPlaneBatched plane srcs _ center slice :=
    ⟨fun i => srcs plane slice i * center, fun _ => 1⟩

local instance : FloatArith Int where
  lt a b := decide (a < b)
  eps := 0

end Bm3dData

end NssFactory.Bm3d
