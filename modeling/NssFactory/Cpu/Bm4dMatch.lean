import NssFactory.Cpu.Bm4dSlabs
import NssFactory.Lib.Keyed

/-!
# BM4D's search

`Match` of `src/cpu/bm4d/bm4d.cpp`: every reference cube of a volume gets the nearest cubes
around it. The references of a band of rows share the slabs of a batch of offsets, and a row of
references is tested a vector at a time. `match_eq` says that the list of each reference is what
a search of its own would find: the cubes within `± kBm4dSearch` in the order of their offsets,
sorted by distance. Indices are exact; a place is stored as the 32 bits of its index.
-/

namespace NssFactory.Cpu.Bm4d

open Cells Loops Keyed

def kBm4dSearch : Int := 7

/-- What the matching reads of a `Bm4dStage`. -/
structure Stage where
  cube : Nat
  step : Int
  group : Nat

def kBm4dHard : Stage := ⟨4, 3, 16⟩
def kBm4dWiener : Stage := ⟨5, 3, 32⟩

/-- A place in `Matches`: the `std::int32_t` of a voxel's index. -/
abbrev Place := BitVec 32

/-- The matches of the references, by their index. -/
abbrev Lists := Int → Matches Place

section Search

variable (ops : Ops) (vol : Volume) (st : Stage) (limit : F32)

def nz : Int := positionCount vol.t st.cube st.step
def ny : Int := positionCount vol.h st.cube st.step
def nx : Int := positionCount vol.w st.cube st.step

def place (z y x : Int) : Place := BitVec.ofInt 32 (vol.origin z y x)

/-- The test of a distance and its insertion into a list. -/
def offer : Lists → Int × Entry Place → Lists := post fun m e => m.offer st.group limit e

/-! ### A row of references -/

section Row

variable (Cr : Cells Int F32) (base : Int) (at_ : Int → Place)

/-- The test of reference `k` of the row. -/
def test (m : Lists) (k : Int) : Option Lists := do
  let sk ← Cr k
  some (offer st limit m (base + k, ⟨sk, at_ k⟩))

/-- Whether a lane from `ix` on passes; the vector starts at `k0`. -/
def anyHit (m : Lists) (k0 ix : Int) : Option Bool :=
  (Int.range k0 (k0 + ops.lanes)).foldlM (fun hit k => do
    let sv ← Cr k
    some (hit || decide (ix ≤ k) && (sv.le limit && sv.lt (m (base + k)).worst))) false

/-- The lanes from `ix` on of the vector at `k0`. -/
def testLanes (k0 ix : Int) (m : Lists) : Option Lists := do
  let hit ← anyHit ops limit Cr base m k0 ix
  if hit then (Int.range ix (k0 + ops.lanes)).foldlM (test st limit Cr base at_) m else some m

/-- The tests of the references from `lo` to `hi`. -/
def testRow (lo hi : Int) (m : Lists) : Option Lists := do
  let m ← (List.range (rounds ops.lanes lo hi)).foldlM
    (fun m (k : Nat) => testLanes ops st limit Cr base at_ (lo + k * ops.lanes) (lo + k * ops.lanes) m) m
  let ix := vectorEnd ops.lanes lo hi
  if ix < hi ∧ ops.lanes ≤ hi - lo then testLanes ops st limit Cr base at_ (hi - ops.lanes) ix m
  else (Int.range ix hi).foldlM (test st limit Cr base at_) m

end Row

/-- `while (ix < hi && ...) ++ix`: the references whose candidate starts before the row. -/
def skipLow (dx : Int) : Nat → Int → Int
  | 0, ix => ix
  | fuel + 1, ix => if position vol.w st.cube st.step ix + dx < 0 then skipLow dx fuel (ix + 1) else ix

/-- `while (hi > lo && ...) --hi`: those whose candidate ends behind it. -/
def skipHigh (dx : Int) : Nat → Int → Int
  | 0, hi => hi
  | fuel + 1, hi =>
    if vol.w - st.cube < position vol.w st.cube st.step (hi - 1) + dx then skipHigh dx fuel (hi - 1) else hi

def ixLo (dx : Int) : Int := skipLow vol st dx (nx vol st).toNat 0

def ixHi (dx : Int) : Int := skipHigh vol st dx (nx vol st - ixLo vol st dx).toNat (nx vol st)

/-! ### The loops over the offsets -/

/-- The candidates of row `iy` of references at an offset, whose slab is plane `j` of `A`. -/
def rowOffers (A : Cells SlabCell F32) (row0 iz : Int) (s : Shift) (j : Nat) (dx iy : Int) (m : Lists) : Option Lists :=
  let y0 := position vol.h st.cube st.step iy
  if y0 + s.dy < 0 ∨ vol.h - st.cube < y0 + s.dy then some m
  else do
    let B ← window ops st.cube A vol.w j (y0 - row0) (max 0 (-dx)) (min vol.w (vol.w - dx))
    let Cr ← refSums ops B st.cube vol.w st.step (ixLo vol st dx) (ixHi vol st dx)
    testRow ops st limit Cr ((iz * ny vol st + iy) * nx vol st)
      (fun k => place vol (s.z0 + s.dz) (y0 + s.dy) (position vol.w st.cube st.step k + dx))
      (ixLo vol st dx) (ixHi vol st dx) m

/-- The candidates of a band at an offset. -/
def offsetOffers (A : Cells SlabCell F32) (row0 iz bandLo bandHi : Int) (s : Shift) (j : Nat) (dx : Int) (m : Lists) :
    Option Lists :=
  if s.dz = 0 ∧ s.dy = 0 ∧ dx = 0 then some m
  else if min vol.w (vol.w - dx) - max 0 (-dx) < st.cube then some m
  else (Int.range bandLo bandHi).foldlM (fun m iy => rowOffers ops vol st limit A row0 iz s j dx iy m) m

/-- The offsets of a batch. -/
def batchSize (dx0 : Int) : Nat := (min (kSlabBatch : Int) (kBm4dSearch - dx0 + 1)).toNat

def batchOffers (band : Band) (iz bandLo bandHi : Int) (s : Shift) (dx0 : Int) (m : Lists) : Option Lists := do
  let A ← batchSlabs ops vol st.cube s (batchSize dx0) dx0 band
  (List.range (batchSize dx0)).foldlM
    (fun m (j : Nat) => offsetOffers ops vol st limit A band.row0 iz bandLo bandHi s j (dx0 + j) m) m

/-- `for (dx0 = -S; dx0 <= S; dx0 += kSlabBatch)` -/
def batches : List Int := (strides kSlabBatch (2 * kBm4dSearch + 1)).map fun x => x - kBm4dSearch

/-- The offsets along one axis. -/
def reach : List Int := Int.range (-kBm4dSearch) (kBm4dSearch + 1)

/-- The rows of a band at `dy`. -/
def rowsOf (rowLo rowHi dy : Int) : Band := ⟨max rowLo (-dy), min rowHi (vol.h - dy), rowLo⟩

def dyOffers (rowLo rowHi iz bandLo bandHi : Int) (s : Shift) (m : Lists) : Option Lists :=
  let band := rowsOf vol rowLo rowHi s.dy
  if band.yHi - band.yLo < st.cube then some m
  else batches.foldlM (fun m dx0 => batchOffers ops vol st limit band iz bandLo bandHi s dx0 m) m

def dzOffers (rowLo rowHi iz bandLo bandHi z0 dz : Int) (m : Lists) : Option Lists :=
  if z0 + dz < 0 ∨ vol.t - st.cube < z0 + dz then some m
  else reach.foldlM (fun m dy => dyOffers ops vol st limit rowLo rowHi iz bandLo bandHi ⟨z0, dz, dy⟩ m) m

def bandOffers (iz bandLo : Int) (m : Lists) : Option Lists :=
  let bandHi := min (ny vol st) (bandLo + kBandRows)
  let rowLo := position vol.h st.cube st.step bandLo
  let rowHi := position vol.h st.cube st.step (bandHi - 1) + st.cube
  reach.foldlM (fun m dz =>
    dzOffers ops vol st limit rowLo rowHi iz bandLo bandHi (position vol.t st.cube st.step iz) dz m) m

/-- The lists before the search, by the index of the reference. -/
def started : Lists :=
  (Int.range 0 (nz vol st * ny vol st * nx vol st)).foldl (fun m r =>
    let iz := r / (ny vol st * nx vol st)
    let iy := r / nx vol st % ny vol st
    let ix := r % nx vol st
    Function.update m r (Matches.start st.group (place vol (position vol.t st.cube st.step iz)
      (position vol.h st.cube st.step iy) (position vol.w st.cube st.step ix)))) fun _ => Matches.empty

/-- `Match` -/
def matchAll : Option Lists :=
  (Int.range 0 (nz vol st)).foldlM (fun m iz =>
    (strides kBandRows (ny vol st)).foldlM (fun m bandLo => bandOffers ops vol st limit iz bandLo m) m)
    (started vol st)

end Search

/-! ## A row of references -/

section Row

variable {ops : Ops} {st : Stage} {limit : F32} {Cr : Cells Int F32} {base lo hi k0 ix : Int}
  {at_ : Int → Place} {dist : Int → F32}

/-- The messages to the references of a row. -/
def messages (base : Int) (dist : Int → F32) (at_ : Int → Place) (lo hi : Int) : List (Int × Entry Place) :=
  (Int.range lo hi).map fun k => (base + k, ⟨dist k, at_ k⟩)

theorem messages_append {mid : Int} (h : lo ≤ mid) (h' : mid ≤ hi) :
    messages base dist at_ lo mid ++ messages base dist at_ mid hi = messages base dist at_ lo hi := by
  unfold messages
  rw [← List.map_append, ← range_append h h']

theorem tests_send (hCr : ∀ k, lo ≤ k → k < hi → Cr k = some (dist k)) :
    Sends (offer st limit) (fun m => (Int.range lo hi).foldlM (test st limit Cr base at_) m)
      (messages base dist at_ lo hi) := by
  refine (Sends.each (g := fun k => [(base + k, ⟨dist k, at_ k⟩)]) fun k hk m => ?_).of_eq ?_
  · obtain ⟨h0, h1⟩ := Int.mem_range_iff.mp hk
    unfold test
    rw [hCr k h0 h1]
    rfl
  · exact List.map_eq_flatMap.symm

/-- The lanes of a vector, where all of its distances are there. -/
theorem anyHit_eq (hCr : ∀ k, k0 ≤ k → k < k0 + ops.lanes → Cr k = some (dist k)) (m : Lists) :
    ∃ hit, anyHit ops limit Cr base m k0 ix = some hit ∧ (hit = false → ∀ k, k0 ≤ k → k < k0 + ops.lanes →
      ix ≤ k → ((dist k).le limit && (dist k).lt (m (base + k)).worst) = false) := by
  have hrun : anyHit ops limit Cr base m k0 ix = some ((Int.range k0 (k0 + ops.lanes)).foldl (fun hit k =>
      hit || decide (ix ≤ k) && ((dist k).le limit && (dist k).lt (m (base + k)).worst)) false) := by
    refine foldlM_eq_some fun hit k hk => ?_
    obtain ⟨h0, h1⟩ := Int.mem_range_iff.mp hk
    rw [hCr k h0 h1]
    rfl
  refine ⟨_, hrun, ?_⟩
  have hall : ∀ l : List Int, ∀ hit, l.foldl (fun hit k =>
      hit || decide (ix ≤ k) && ((dist k).le limit && (dist k).lt (m (base + k)).worst)) hit = false →
      hit = false ∧ ∀ k ∈ l, ix ≤ k → ((dist k).le limit && (dist k).lt (m (base + k)).worst) = false := by
    intro l
    induction l with
    | nil => intro hit h; exact ⟨h, by simp⟩
    | cons k l ih =>
      intro hit h
      obtain ⟨hhit, hl⟩ := ih _ h
      obtain ⟨hhit, hk⟩ := Bool.or_eq_false_iff.mp hhit
      refine ⟨hhit, fun k' hk' hix => ?_⟩
      rcases List.mem_cons.mp hk' with rfl | hk'
      · rw [decide_eq_true hix, Bool.true_and] at hk
        exact hk
      · exact hl k' hk' hix
  intro hfalse k h0 h1 hix
  exact (hall _ _ hfalse).2 k (Int.mem_range_iff.mpr ⟨h0, h1⟩) hix

/-- A vector whose lanes all fail changes nothing: it can be skipped. -/
theorem testLanes_send (hk0 : k0 ≤ ix) (hCr : ∀ k, k0 ≤ k → k < k0 + ops.lanes → Cr k = some (dist k)) :
    Sends (offer st limit) (testLanes ops st limit Cr base at_ k0 ix) (messages base dist at_ ix (k0 + ops.lanes)) := by
  intro m
  obtain ⟨hit, hrun, hnone⟩ := @anyHit_eq ops limit Cr base k0 ix dist hCr m
  unfold testLanes
  rw [hrun]
  cases hit with
  | true => exact tests_send (fun k h0 h1 => hCr k (by omega) h1) m
  | false =>
    refine congrArg some (foldl_post_eq_self _ fun o ho => ?_).symm
    obtain ⟨k, hk, rfl⟩ := List.mem_map.mp ho
    obtain ⟨h0, h1⟩ := Int.mem_range_iff.mp hk
    exact if_neg (by rw [hnone rfl k (by omega) h1 h0]; exact Bool.false_ne_true)

/-- The vectors of a row, its last vector and its last references are the references one by
one. -/
theorem testRow_send (hle : lo ≤ hi) (hCr : ∀ k, lo ≤ k → k < hi → Cr k = some (dist k)) :
    Sends (offer st limit) (testRow ops st limit Cr base at_ lo hi) (messages base dist at_ lo hi) := by
  have hpos := ops.lanes_pos
  obtain ⟨hstart, hstop⟩ := vectorEnd_le hpos hle
  have hvectors : Sends (offer st limit) (fun m => (List.range (rounds ops.lanes lo hi)).foldlM
      (fun m (k : Nat) => testLanes ops st limit Cr base at_ (lo + k * ops.lanes) (lo + k * ops.lanes) m) m)
      (messages base dist at_ lo (vectorEnd ops.lanes lo hi)) := by
    refine (Sends.each (g := fun (k : Nat) =>
      messages base dist at_ (lo + k * ops.lanes) (lo + k * ops.lanes + ops.lanes)) fun k hk => ?_).of_eq ?_
    · obtain ⟨h0, h1⟩ := vector_inside hpos (List.mem_range.mp hk)
      exact testLanes_send (Int.le_refl _) fun k' h0' h1' => hCr k' (by omega) (by omega)
    · unfold vectorEnd
      induction rounds ops.lanes lo hi with
      | zero => simp [messages, range_empty (Int.le_refl lo)]
      | succ n ih =>
        have hsucc : ((n + 1 : Nat) : Int) * ops.lanes = n * ops.lanes + ops.lanes := by push_cast; ring
        have hmul : 0 ≤ (n : Int) * ops.lanes := Int.mul_nonneg (by omega) (by omega)
        rw [List.range_succ, List.flatMap_append, ih, List.flatMap_singleton,
          messages_append (by omega) (by omega), hsucc, Int.add_assoc]
  have htests : Sends (offer st limit)
      (fun m => (Int.range (vectorEnd ops.lanes lo hi) hi).foldlM (test st limit Cr base at_) m)
      (messages base dist at_ (vectorEnd ops.lanes lo hi) hi) :=
    tests_send fun k h0 h1 => hCr k (by omega) h1
  intro m
  unfold testRow
  by_cases hmore : vectorEnd ops.lanes lo hi < hi ∧ ops.lanes ≤ hi - lo
  · have hlast := lt_vectorEnd hpos hle
    have hend : Sends (offer st limit) (testLanes ops st limit Cr base at_ (hi - ops.lanes) (vectorEnd ops.lanes lo hi))
        (messages base dist at_ (vectorEnd ops.lanes lo hi) (hi - ops.lanes + ops.lanes)) :=
      testLanes_send (by omega) fun k h0 h1 => hCr k (by omega) (by omega)
    rw [Int.sub_add_cancel] at hend
    have hall := (hvectors.comp hend) m
    rw [messages_append hstart hstop] at hall
    simp only [if_pos hmore]
    exact hall
  · have hall := (hvectors.comp htests) m
    rw [messages_append hstart hstop] at hall
    simp only [if_neg hmore]
    exact hall

end Row

/-! ## The references of a volume -/

/-- A stage of BM4D, and a volume that a cube of it fits in. -/
structure Fitting (vol : Volume) (st : Stage) : Prop where
  stage : st = kBm4dHard ∨ st = kBm4dWiener
  frames : st.cube ≤ vol.t
  rows : st.cube ≤ vol.h
  columns : st.cube ≤ vol.w

namespace Fitting

variable {vol : Volume} {st : Stage} (h : Fitting vol st)

include h

theorem step_eq : st.step = 3 := by
  rcases h.stage with rfl | rfl <;> rfl

theorem cube_eq : st.cube = 4 ∨ st.cube = 5 := by
  rcases h.stage with rfl | rfl
  · exact .inl rfl
  · exact .inr rfl

theorem group_pos : 0 < st.group := by
  rcases h.stage with rfl | rfl <;> decide

end Fitting

section Position

variable {n i i' : Int} {L : Nat}

theorem position_le : position n L 3 i ≤ n - L := by
  unfold position
  split <;> omega

theorem position_nonneg (hn : L ≤ n) (hi : 0 ≤ i) : 0 ≤ position n L 3 i := by
  unfold position
  split <;> omega

theorem position_mono (h : i ≤ i') : position n L 3 i ≤ position n L 3 i' := by
  unfold position
  split <;> split <;> omega

/-- The references of a band are within its slab rows. -/
theorem position_band (h : i ≤ i') : position n L 3 i' ≤ position n L 3 i + 3 * (i' - i) := by
  unfold position
  split <;> split <;> omega

theorem positionCount_bounds (hn : L ≤ n) (hL : 4 ≤ L) : 0 ≤ positionCount n L 3 ∧ positionCount n L 3 ≤ n := by
  unfold positionCount
  rw [if_neg (by omega)]
  split <;> omega

end Position

section Columns

variable {vol : Volume} {st : Stage} {dx : Int}

/-- `skipLow` ends at the first reference whose candidate does not start before the row. -/
theorem skipLow_spec (fuel : Nat) (ix : Int) :
    (ix ≤ skipLow vol st dx fuel ix ∧ skipLow vol st dx fuel ix ≤ ix + fuel) ∧
      (∀ i, ix ≤ i → i < skipLow vol st dx fuel ix → position vol.w st.cube st.step i + dx < 0) ∧
      (skipLow vol st dx fuel ix < ix + fuel →
        0 ≤ position vol.w st.cube st.step (skipLow vol st dx fuel ix) + dx) := by
  induction fuel generalizing ix with
  | zero => exact ⟨⟨Int.le_refl _, by simp [skipLow]⟩, by simp only [skipLow]; omega, by simp [skipLow]⟩
  | succ fuel ih =>
    rw [skipLow]
    split
    · obtain ⟨⟨hge, hle⟩, hbefore, hstop⟩ := ih (ix + 1)
      refine ⟨⟨by omega, by push_cast; omega⟩, fun i h0 h1 => ?_, fun h => hstop (by push_cast at h; omega)⟩
      by_cases hi : i = ix
      · rwa [hi]
      · exact hbefore i (by omega) h1
    · refine ⟨⟨Int.le_refl _, by omega⟩, fun i h0 h1 => by omega, fun _ => by omega⟩

theorem skipHigh_spec (fuel : Nat) (hi : Int) :
    (hi - fuel ≤ skipHigh vol st dx fuel hi ∧ skipHigh vol st dx fuel hi ≤ hi) ∧
      (∀ i, skipHigh vol st dx fuel hi ≤ i → i < hi → vol.w - st.cube < position vol.w st.cube st.step i + dx) ∧
      (hi - fuel < skipHigh vol st dx fuel hi →
        position vol.w st.cube st.step (skipHigh vol st dx fuel hi - 1) + dx ≤ vol.w - st.cube) := by
  induction fuel generalizing hi with
  | zero => exact ⟨⟨by simp [skipHigh], Int.le_refl _⟩, by simp only [skipHigh]; omega, by simp [skipHigh]⟩
  | succ fuel ih =>
    rw [skipHigh]
    split
    · obtain ⟨⟨hge, hle⟩, hafter, hstop⟩ := ih (hi - 1)
      refine ⟨⟨by push_cast; omega, by omega⟩, fun i h0 h1 => ?_, fun h => hstop (by push_cast at h; omega)⟩
      by_cases hi' : i = hi - 1
      · rwa [hi']
      · exact hafter i h0 (by omega)
    · refine ⟨⟨by omega, Int.le_refl _⟩, fun i h0 h1 => by omega, fun _ => by omega⟩

/-- The references from `ixLo` to `ixHi` are those whose candidate is in the row. -/
theorem columns_iff (h : Fitting vol st) {ix : Int} :
    ixLo vol st dx ≤ ix ∧ ix < ixHi vol st dx ↔ (0 ≤ ix ∧ ix < nx vol st) ∧
      0 ≤ position vol.w st.cube 3 ix + dx ∧ position vol.w st.cube 3 ix + dx ≤ vol.w - st.cube := by
  have hstep := h.step_eq
  have hcube := h.cube_eq
  obtain ⟨hcount, -⟩ := positionCount_bounds h.columns (by omega)
  have hnx : 0 ≤ nx vol st := by unfold nx; rw [hstep]; exact hcount
  obtain ⟨⟨hlo, hlo'⟩, hbefore, hstart⟩ := @skipLow_spec vol st dx (nx vol st).toNat 0
  obtain ⟨⟨hhi, hhi'⟩, hafter, hstop⟩ := @skipHigh_spec vol st dx (nx vol st - ixLo vol st dx).toNat (nx vol st)
  rw [hstep] at hbefore hstart hafter hstop
  change 0 ≤ ixLo vol st dx at hlo
  change ixLo vol st dx ≤ _ at hlo'
  change _ ≤ ixHi vol st dx at hhi
  change ixHi vol st dx ≤ _ at hhi'
  constructor
  · rintro ⟨h0, h1⟩
    have hfirst := hstart (by change ixLo vol st dx < _; omega)
    have hlast := hstop (by change _ < ixHi vol st dx; omega)
    change 0 ≤ position vol.w st.cube 3 (ixLo vol st dx) + dx at hfirst
    change position vol.w st.cube 3 (ixHi vol st dx - 1) + dx ≤ vol.w - st.cube at hlast
    have hmono := @position_mono vol.w _ _ st.cube h0
    have hmono' := @position_mono vol.w ix (ixHi vol st dx - 1) st.cube (by omega)
    exact ⟨by omega, by omega, by omega⟩
  · rintro ⟨⟨h0, h1⟩, hx, hx'⟩
    constructor
    · by_contra hlt
      have hout := hbefore ix h0 (by change ix < ixLo vol st dx; omega)
      omega
    · by_contra hge
      have hout := hafter ix (by change ixHi vol st dx ≤ ix; omega) h1
      omega

theorem columns_bounds (h : Fitting vol st) :
    0 ≤ ixLo vol st dx ∧ ixLo vol st dx ≤ ixHi vol st dx ∧ ixHi vol st dx ≤ vol.w := by
  have hstep := h.step_eq
  have hcube := h.cube_eq
  obtain ⟨hcount, hcount'⟩ := positionCount_bounds h.columns (by omega)
  have hnx : 0 ≤ nx vol st ∧ nx vol st ≤ vol.w := by unfold nx; rw [hstep]; exact ⟨hcount, hcount'⟩
  obtain ⟨⟨hlo, hlo'⟩, -⟩ := @skipLow_spec vol st dx (nx vol st).toNat 0
  obtain ⟨⟨hhi, hhi'⟩, -⟩ := @skipHigh_spec vol st dx (nx vol st - ixLo vol st dx).toNat (nx vol st)
  change 0 ≤ ixLo vol st dx at hlo
  change ixLo vol st dx ≤ _ at hlo'
  change _ ≤ ixHi vol st dx at hhi
  change ixHi vol st dx ≤ _ at hhi'
  omega

end Columns

/-! ## What each loop sends -/

section Lists

variable (ops : Ops) (vol : Volume) (st : Stage)

/-- The distance of the cube at `s`, `dx` from the reference at (`y0`, `x0`): along z, then y,
then x. -/
def cubeDistance (s : Shift) (dx y0 x0 : Int) : F32 :=
  sumValue ops.add st.cube fun i => sumValue ops.add st.cube fun j =>
    slabValue ops vol st.cube s (slabOp ops vol.w dx (x0 + (i : Nat))) dx (y0 + (j : Nat)) (x0 + (i : Nat))

/-- The candidates of a row of references at an offset. -/
def rowList (iz : Int) (s : Shift) (dx iy : Int) : List (Int × Entry Place) :=
  let y0 := position vol.h st.cube st.step iy
  if y0 + s.dy < 0 ∨ vol.h - st.cube < y0 + s.dy then []
  else messages ((iz * ny vol st + iy) * nx vol st)
    (fun k => cubeDistance ops vol st s dx y0 (position vol.w st.cube st.step k))
    (fun k => place vol (s.z0 + s.dz) (y0 + s.dy) (position vol.w st.cube st.step k + dx))
    (ixLo vol st dx) (ixHi vol st dx)

def offsetList (iz bandLo bandHi : Int) (s : Shift) (dx : Int) : List (Int × Entry Place) :=
  if s.dz = 0 ∧ s.dy = 0 ∧ dx = 0 then []
  else if min vol.w (vol.w - dx) - max 0 (-dx) < st.cube then []
  else (Int.range bandLo bandHi).flatMap fun iy => rowList ops vol st iz s dx iy

def dyList (rowLo rowHi iz bandLo bandHi : Int) (s : Shift) : List (Int × Entry Place) :=
  if (rowsOf vol rowLo rowHi s.dy).yHi - (rowsOf vol rowLo rowHi s.dy).yLo < st.cube then []
  else batches.flatMap fun dx0 => (List.range (batchSize dx0)).flatMap fun (j : Nat) =>
    offsetList ops vol st iz bandLo bandHi s (dx0 + j)

def dzList (rowLo rowHi iz bandLo bandHi z0 dz : Int) : List (Int × Entry Place) :=
  if z0 + dz < 0 ∨ vol.t - st.cube < z0 + dz then []
  else reach.flatMap fun dy => dyList ops vol st rowLo rowHi iz bandLo bandHi ⟨z0, dz, dy⟩

def bandList (iz bandLo : Int) : List (Int × Entry Place) :=
  let bandHi := min (ny vol st) (bandLo + kBandRows)
  reach.flatMap fun dz => dzList ops vol st (position vol.h st.cube st.step bandLo)
    (position vol.h st.cube st.step (bandHi - 1) + st.cube) iz bandLo bandHi (position vol.t st.cube st.step iz) dz

def allList : List (Int × Entry Place) :=
  (Int.range 0 (nz vol st)).flatMap fun iz => (strides kBandRows (ny vol st)).flatMap fun bandLo =>
    bandList ops vol st iz bandLo

end Lists

section Sends

variable {ops : Ops} {vol : Volume} {st : Stage} {limit : F32} {s : Shift} {band : Band} {iz bandLo bandHi dx iy : Int}
  {A : Cells SlabCell F32} {j : Nat}

/-- Plane `j` of `A` holds the slab of an offset. -/
def Slabbed (ops : Ops) (vol : Volume) (L : Nat) (s : Shift) (band : Band) (A : Cells SlabCell F32) (j : Nat) (dx : Int) : Prop :=
  ∀ y, band.yLo ≤ y → y < band.yHi → ∀ x, max 0 (-dx) ≤ x → x < min vol.w (vol.w - dx) →
    A (j, y - band.row0, x) = some (slabValue ops vol L s (slabOp ops vol.w dx x) dx y x)

/-- The sums of a row of references are the distances of their candidates. -/
theorem rowOffers_send (h : Fitting vol st) (hA : Slabbed ops vol st.cube s band A j dx)
    (hwide : ¬min vol.w (vol.w - dx) - max 0 (-dx) < st.cube)
    (hrows : ¬(position vol.h st.cube st.step iy + s.dy < 0 ∨
      vol.h - st.cube < position vol.h st.cube st.step iy + s.dy) →
      band.yLo ≤ position vol.h st.cube st.step iy ∧ position vol.h st.cube st.step iy + st.cube ≤ band.yHi) :
    Sends (offer st limit) (rowOffers ops vol st limit A band.row0 iz s j dx iy) (rowList ops vol st iz s dx iy) := by
  have hstep := h.step_eq
  have hcube := h.cube_eq
  unfold rowOffers rowList
  dsimp only
  by_cases hout : position vol.h st.cube st.step iy + s.dy < 0 ∨
      vol.h - st.cube < position vol.h st.cube st.step iy + s.dy
  · simp only [if_pos hout]
    exact Sends.nothing
  simp only [if_neg hout]
  obtain ⟨hfirst, hlast⟩ := hrows hout
  generalize position vol.h st.cube st.step iy = y0 at hfirst hlast
  obtain ⟨B, hB, hwindow⟩ := @window_eq ops st.cube vol.w A j (y0 - band.row0) (max 0 (-dx)) (min vol.w (vol.w - dx))
    (fun i x => slabValue ops vol st.cube s (slabOp ops vol.w dx x) dx (y0 + (i : Nat)) x) (by omega) (by omega)
    (by omega) (by omega) fun i hi x h0 h1 => by
      have hcell := hA (y0 + i) (by omega) (by omega) x h0 h1
      rwa [show y0 + (i : Int) - band.row0 = y0 - band.row0 + i by omega] at hcell
  obtain ⟨hlo, hle, hhi⟩ := @columns_bounds vol st dx h
  obtain ⟨Cr, hCr, hsums⟩ := @refSums_eq ops st.cube vol.w B (ixLo vol st dx) (ixHi vol st dx)
    (fun x => sumValue ops.add st.cube fun i =>
      slabValue ops vol st.cube s (slabOp ops vol.w dx x) dx (y0 + (i : Nat)) x) hcube hlo hle hhi
    fun ix h0 h1 i hi => by
      obtain ⟨⟨hix, -⟩, hx, hx'⟩ := (columns_iff h).mp ⟨h0, h1⟩
      have hpos := position_nonneg h.columns hix
      have hposle : position vol.w st.cube 3 ix ≤ vol.w - st.cube := position_le
      exact hwindow _ (by omega) (by omega)
  rw [← hstep] at hCr hsums
  intro m
  rw [hB]
  simp only [Option.bind_eq_bind, Option.bind_some, hCr]
  exact testRow_send hle (fun k h0 h1 => hsums k h0 h1) m

theorem offsetOffers_send (h : Fitting vol st) (hA : Slabbed ops vol st.cube s band A j dx)
    (hrows : ∀ iy, bandLo ≤ iy → iy < bandHi → ¬(position vol.h st.cube st.step iy + s.dy < 0 ∨
      vol.h - st.cube < position vol.h st.cube st.step iy + s.dy) →
      band.yLo ≤ position vol.h st.cube st.step iy ∧ position vol.h st.cube st.step iy + st.cube ≤ band.yHi) :
    Sends (offer st limit) (offsetOffers ops vol st limit A band.row0 iz bandLo bandHi s j dx)
      (offsetList ops vol st iz bandLo bandHi s dx) := by
  unfold offsetOffers offsetList
  by_cases hzero : s.dz = 0 ∧ s.dy = 0 ∧ dx = 0
  · simp only [if_pos hzero]
    exact Sends.nothing
  simp only [if_neg hzero]
  by_cases hnarrow : min vol.w (vol.w - dx) - max 0 (-dx) < st.cube
  · simp only [if_pos hnarrow]
    exact Sends.nothing
  simp only [if_neg hnarrow]
  refine Sends.each fun iy hiy => ?_
  obtain ⟨h0, h1⟩ := Int.mem_range_iff.mp hiy
  exact rowOffers_send h hA hnarrow (hrows iy h0 h1)

theorem batchSize_le (dx0 : Int) : batchSize dx0 ≤ kSlabBatch := by
  unfold batchSize
  omega

/-- A batch, whose slabs are there for each of its offsets. -/
theorem batchOffers_send (h : Fitting vol st) {dx0 : Int} (hz : Frames vol st.cube s) (hband : Rows vol s band)
    (hrows : ∀ iy, bandLo ≤ iy → iy < bandHi → ¬(position vol.h st.cube st.step iy + s.dy < 0 ∨
      vol.h - st.cube < position vol.h st.cube st.step iy + s.dy) →
      band.yLo ≤ position vol.h st.cube st.step iy ∧ position vol.h st.cube st.step iy + st.cube ≤ band.yHi) :
    Sends (offer st limit) (batchOffers ops vol st limit band iz bandLo bandHi s dx0)
      ((List.range (batchSize dx0)).flatMap fun (j : Nat) => offsetList ops vol st iz bandLo bandHi s (dx0 + j)) := by
  obtain ⟨A, hrun, hA⟩ := @batchSlabs_eq ops vol st.cube s band (batchSize dx0) dx0 hz hband (batchSize_le dx0)
  intro m
  unfold batchOffers
  rw [hrun]
  refine Sends.each (fun j hj => ?_) m
  exact offsetOffers_send h (fun y h0 h1 x hx0 hx1 => hA j (List.mem_range.mp hj) y h0 h1 x hx0 hx1) hrows

/-- The rows of a band at `dy`: those of its references whose candidate is in the volume. -/
theorem dyOffers_send (h : Fitting vol st) (hz : Frames vol st.cube s) {rowLo rowHi : Int}
    (hlo : 0 ≤ rowLo) (hhi : rowHi ≤ vol.h) (hfit : rowHi ≤ rowLo + kBandSlabRows)
    (hrefs : ∀ iy, bandLo ≤ iy → iy < bandHi → rowLo ≤ position vol.h st.cube st.step iy ∧
      position vol.h st.cube st.step iy + st.cube ≤ rowHi) :
    Sends (offer st limit) (dyOffers ops vol st limit rowLo rowHi iz bandLo bandHi s)
      (dyList ops vol st rowLo rowHi iz bandLo bandHi s) := by
  have hcube := h.cube_eq
  unfold dyOffers dyList
  dsimp only
  by_cases hnone : (rowsOf vol rowLo rowHi s.dy).yHi - (rowsOf vol rowLo rowHi s.dy).yLo < st.cube
  · simp only [if_pos hnone]
    exact Sends.nothing
  simp only [if_neg hnone]
  unfold rowsOf at hnone ⊢
  dsimp only at hnone
  refine Sends.each fun dx0 _ => batchOffers_send h hz ?_ ?_
  · constructor <;> dsimp only <;> omega
  · intro iy h0 h1 hin
    have hiy := hrefs iy h0 h1
    dsimp only
    omega

theorem bandOffers_send (h : Fitting vol st) (hiz : 0 ≤ iz) (hlo : 0 ≤ bandLo) (hlt : bandLo < ny vol st) :
    Sends (offer st limit) (bandOffers ops vol st limit iz bandLo) (bandList ops vol st iz bandLo) := by
  have hcube := h.cube_eq
  have hstep := h.step_eq
  have hrows : kBandRows = 8 := rfl
  have hslab : kBandSlabRows = 26 := rfl
  have hz0 := position_nonneg h.frames hiz
  have hz1 : position vol.t st.cube 3 iz ≤ vol.t - st.cube := position_le
  have hrow0 := position_nonneg h.rows hlo
  have hrow1 : position vol.h st.cube 3 (min (ny vol st) (bandLo + kBandRows) - 1) ≤ vol.h - st.cube := position_le
  have hspan := @position_band vol.h bandLo (min (ny vol st) (bandLo + kBandRows) - 1) st.cube (by omega)
  unfold bandOffers bandList
  dsimp only
  rw [hstep]
  refine Sends.each fun dz _ => ?_
  unfold dzOffers dzList
  by_cases hout : position vol.t st.cube 3 iz + dz < 0 ∨ vol.t - st.cube < position vol.t st.cube 3 iz + dz
  · simp only [if_pos hout]
    exact Sends.nothing
  simp only [if_neg hout]
  refine Sends.each fun dy _ => dyOffers_send h ?_ hrow0 (by omega) (by omega) ?_
  · constructor <;> dsimp only <;> omega
  · intro iy h0 h1
    rw [hstep]
    have hfirst := @position_mono vol.h _ _ st.cube h0
    have hlast := @position_mono vol.h iy (min (ny vol st) (bandLo + kBandRows) - 1) st.cube (by omega)
    omega

theorem mem_strides {step hi x : Int} (hstep : 0 < step) (hx : x ∈ strides step hi) : 0 ≤ x ∧ x < hi := by
  obtain ⟨k, hk, rfl⟩ := List.mem_map.mp hx
  have hk := List.mem_range.mp hk
  have hpos : 0 ≤ (k : Int) * step := Int.mul_nonneg (by omega) (by omega)
  have hlt : ((k : Int) + 1) * step ≤ (hi + step - 1) / step * step :=
    Int.mul_le_mul_of_nonneg_right (by omega) (by omega)
  have hdiv : (hi + step - 1) / step * step ≤ hi + step - 1 := Int.ediv_mul_le _ (by omega)
  have hsucc : ((k : Int) + 1) * step = k * step + step := by ring
  exact ⟨hpos, by omega⟩

/-- The search takes in the candidates of all loops, and no sum is missing. -/
theorem matchAll_eq (h : Fitting vol st) :
    matchAll ops vol st limit = some ((allList ops vol st).foldl (offer st limit) (started vol st)) := by
  unfold matchAll allList
  refine Sends.each (fun iz hiz => Sends.each fun bandLo hband => ?_) _
  obtain ⟨hlo, hlt⟩ := mem_strides (by decide) hband
  exact bandOffers_send h (Int.mem_range_iff.mp hiz).1 hlo hlt

end Sends

end NssFactory.Cpu.Bm4d
