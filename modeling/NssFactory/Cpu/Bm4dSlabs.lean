import NssFactory.Cpu.Bm4dMatches
import NssFactory.Lib.Cells

/-!
# The sums behind BM4D's distances

`Slab`, `Slabs`, `Window` and `RefSums` of `src/cpu/bm4d/bm4d.cpp`. The distance of two cubes is
a sum along z, then y, then x, and each of the three is shared: the slab of an offset by a band
of reference rows, the window by a row of references. The memories `A`, `B` and `Cr` start
without values (`Cells.fresh`), whatever an earlier offset has left in them, so that a sum that
read such a cell would have no result; nor has a store outside of the band's slab plane.

The operations on floats are parameters (`Ops`). Where `MulAdd` is not fused the slab of an
offset rounds its whole vectors and its last columns differently, and so does the model
(`slabOp`).
-/

namespace NssFactory.Cpu.Bm4d

open Cells Loops

def kMaxCube : Int := 5
def kWindowPad : Int := 64
def kSlabBatch : Nat := 8
def kBandRows : Int := 8
def kMaxStep : Int := 3
def kBandSlabRows : Int := (kBandRows - 1) * kMaxStep + kMaxCube

/-- The sums of squares that may be NaN, as they are added up. -/
def Running (d : F32) : Prop := d.isNaN = true ∨ Proper d

/-- A target's vectors and its operations on floats. -/
structure Ops where
  lanes : Int
  /-- `HWY_NATIVE_FMA` -/
  nativeFma : Bool
  sub : F32 → F32 → F32
  add : F32 → F32 → F32
  /-- `std::fma` -/
  fma : F32 → F32 → F32 → F32
  /-- `hn::MulAdd` -/
  mulAdd : F32 → F32 → F32 → F32
  lanes_pos : 0 < lanes
  mulAdd_eq : nativeFma = true → mulAdd = fma
  add_proper : ∀ {a b}, Proper a → Proper b → Proper (add a b)
  fma_running : ∀ {e acc}, Running acc → Running (fma e e acc)
  mulAdd_running : ∀ {e acc}, Running acc → Running (mulAdd e e acc)

/-- The frames of a volume and what they hold. -/
structure Volume where
  t : Int
  h : Int
  w : Int
  value : Int → Int → Int → F32

namespace Volume

variable (vol : Volume)

/-- `at` -/
def origin (z y x : Int) : Int := (z * vol.h + y) * vol.w + x

/-- A voxel, which has to be in the volume. -/
def load (z y x : Int) : Option F32 :=
  if (0 ≤ z ∧ z < vol.t) ∧ (0 ≤ y ∧ y < vol.h) ∧ 0 ≤ x ∧ x < vol.w then some (vol.value z y x) else none

end Volume

/-- The offset of a candidate, and the frame of the references. -/
structure Shift where
  z0 : Int
  dz : Int
  dy : Int

/-- Where a slab's rows start and end, and the row of its plane's first row. -/
structure Band where
  yLo : Int
  yHi : Int
  row0 : Int

/-- A cell of `A`: the plane of the offset in its batch, the row and the column. -/
abbrev SlabCell := Nat × Int × Int

/-- The cells of a band's slab planes. -/
def inPlanes (w : Int) (c : SlabCell) : Bool :=
  decide (c.1 < kSlabBatch ∧ (0 ≤ c.2.1 ∧ c.2.1 < kBandSlabRows) ∧ 0 ≤ c.2.2 ∧ c.2.2 < w)

section Slabs

variable (ops : Ops) (vol : Volume) (L : Nat) (s : Shift)

/-- The squares along z, added with `op`. -/
def slabSum (op : F32 → F32 → F32 → F32) (dx y x : Int) : Option F32 :=
  (List.range L).foldlM (fun acc (k : Nat) => do
    let p ← vol.load (s.z0 + k) y x
    let q ← vol.load (s.z0 + k + s.dz) (y + s.dy) (x + dx)
    let e := ops.sub p q
    some (op e e acc)) F32.zero

/-- The cell of a column. -/
def slabCell (band : Band) (j : Nat) (y x : Int) : SlabCell := (j, y - band.row0, x)

/-- `Slab`, of offset `j` of the batch -/
def slab (band : Band) (j : Nat) (dx xLo xHi : Int) (A : Cells SlabCell F32) : Option (Cells SlabCell F32) :=
  (Int.range band.yLo band.yHi).foldlM (fun A y => do
    let A ← vectors (inPlanes vol.w) (slabCell band j y) ops.lanes (slabSum ops vol L s ops.mulAdd dx y) xLo xHi A
    scalars (inPlanes vol.w) (slabCell band j y) (slabSum ops vol L s ops.fma dx y)
      (vectorEnd ops.lanes xLo xHi) xHi A) A

section Row

variable (D : Nat) (dx0 : Int) (band : Band) (y : Int)

/-- The columns that every offset of the batch has. -/
def cLo : Int := max 0 (-dx0)
def cHi : Int := min vol.w (vol.w - (dx0 + D - 1))

/-- The columns of offset `j`. -/
def lo (j : Nat) : Int := max 0 (-(dx0 + j))
def hi (j : Nat) : Int := min vol.w (vol.w - (dx0 + j))

/-- `one`: a vector of columns of offset `j`. -/
def one (j : Nat) (x : Int) : Cells SlabCell F32 → Option (Cells SlabCell F32) :=
  vec (inPlanes vol.w) (slabCell band j y) ops.lanes (slabSum ops vol L s ops.mulAdd (dx0 + j) y) x

/-- `all`: the vectors of these columns of every offset. -/
def all (x : Int) (A : Cells SlabCell F32) : Option (Cells SlabCell F32) :=
  (List.range D).foldlM (fun A j => one ops vol L s dx0 band y j x A) A

/-- The common columns, a vector at a time; the last vector ends with them. -/
def commonRun (A : Cells SlabCell F32) : Option (Cells SlabCell F32) := do
  let A ← (List.range (rounds ops.lanes (cLo dx0) (cHi vol D dx0))).foldlM
    (fun A (k : Nat) => all ops vol L s D dx0 band y (cLo dx0 + k * ops.lanes) A) A
  if vectorEnd ops.lanes (cLo dx0) (cHi vol D dx0) < cHi vol D dx0 then
    all ops vol L s D dx0 band y (cHi vol D dx0 - ops.lanes) A
  else some A

/-- `run`: columns of offset `j` on its own. -/
def ownRun (j : Nat) (s0 s1 : Int) (A : Cells SlabCell F32) : Option (Cells SlabCell F32) :=
  if s1 ≤ s0 then some A
  else if ops.lanes ≤ hi vol dx0 j - lo dx0 j then do
    let A ← vectors (inPlanes vol.w) (slabCell band j y) ops.lanes
      (slabSum ops vol L s ops.mulAdd (dx0 + j) y) s0 s1 A
    if vectorEnd ops.lanes s0 s1 < s1 then one ops vol L s dx0 band y j (max (lo dx0 j) (s1 - ops.lanes)) A
    else some A
  else scalars (inPlanes vol.w) (slabCell band j y) (slabSum ops vol L s ops.fma (dx0 + j) y) s0 s1 A

/-- A row of all slabs of a batch; where the common columns are done they are done up to their
end. -/
def slabsRow (A : Cells SlabCell F32) : Option (Cells SlabCell F32) :=
  if ops.lanes ≤ cHi vol D dx0 - cLo dx0 then do
    let A ← commonRun ops vol L s D dx0 band y A
    (List.range D).foldlM (fun A j => do
      let A ← ownRun ops vol L s dx0 band y j (lo dx0 j) (min (cLo dx0) (hi vol dx0 j)) A
      ownRun ops vol L s dx0 band y j (max (cHi vol D dx0) (lo dx0 j)) (hi vol dx0 j) A) A
  else
    (List.range D).foldlM (fun A j => ownRun ops vol L s dx0 band y j (lo dx0 j) (hi vol dx0 j) A) A

end Row

/-- `Slabs` -/
def slabs (D : Nat) (dx0 : Int) (band : Band) (A : Cells SlabCell F32) : Option (Cells SlabCell F32) :=
  (Int.range band.yLo band.yHi).foldlM (fun A y => slabsRow ops vol L s D dx0 band y A) A

/-- The slabs of a batch of offsets, as `Match` takes them for the target. -/
def batchSlabs (D : Nat) (dx0 : Int) (band : Band) : Option (Cells SlabCell F32) :=
  if ops.nativeFma then slabs ops vol L s D dx0 band fresh
  else (List.range D).foldlM (fun A j =>
    slab ops vol L s band j (dx0 + j) (max 0 (-(dx0 + j))) (min vol.w (vol.w - (dx0 + j))) A) fresh

end Slabs

/-! ## Windows and references -/

/-- `acc = first; acc = acc + next` -/
def sumOf (add : F32 → F32 → F32) (L : Nat) (term : Nat → Option F32) : Option F32 := do
  let acc ← term 0
  (List.range' 1 (L - 1)).foldlM (fun acc i => do
    let v ← term i
    some (add acc v)) acc

/-- The cells of `B`. -/
def inWindow (w x : Int) : Bool := decide (0 ≤ x ∧ x < w + kWindowPad)

/-- `Window`, of the rows from `y0` on of plane `j` -/
def window (ops : Ops) (L : Nat) (A : Cells SlabCell F32) (w : Int) (j : Nat) (y0 xLo xHi : Int) : Option (Cells Int F32) := do
  let value := fun x => sumOf ops.add L fun i => A (j, y0 + i, x)
  let B ← vectors (inWindow w) id ops.lanes value xLo xHi fresh
  let x := vectorEnd ops.lanes xLo xHi
  if x < xHi ∧ ops.lanes ≤ xHi - xLo then vec (inWindow w) id ops.lanes value (xHi - ops.lanes) B
  else scalars (inWindow w) id value x xHi B

/-- Reference positions along an edge: 0, step, ... and `n - L`. -/
def positionCount (n : Int) (L : Nat) (step : Int) : Int :=
  if n < L then 0 else (n - L) / step + 1 + if (n - L) % step ≠ 0 then 1 else 0

def position (n : Int) (L : Nat) (step i : Int) : Int := if n - L < i * step then n - L else i * step

/-- The lane of a reference at `3 k`, of the two deinterleaved loads. -/
def refLane (add : F32 → F32 → F32) (B : Cells Int F32) (L : Nat) (k : Int) : Option F32 := do
  let b0 ← B (3 * k)
  let b1 ← B (3 * k + 1)
  let b2 ← B (3 * k + 2)
  let acc := add (add b0 b1) b2
  if L > 3 then do
    let c0 ← B (3 * k + 3)
    let acc := add acc c0
    if L > 4 then do
      let c1 ← B (3 * k + 3 + 1)
      let acc := add acc c1
      if L > 5 then (B (3 * k + 3 + 2)).map (add acc) else some acc
    else some acc
  else some acc

/-- `vec` of `RefSums`; the loads stay in `B`. -/
def refVec (ops : Ops) (B : Cells Int F32) (L : Nat) (w : Int) (k : Int) (Cr : Cells Int F32) : Option (Cells Int F32) :=
  if inWindow w (3 * k) ∧ inWindow w (3 * k + 3 + 3 * ops.lanes - 1) then
    vec (fun ix => decide (0 ≤ ix ∧ ix < w)) id ops.lanes (refLane ops.add B L) k Cr
  else none

/-- `regular` in `RefSums`: the references at `3 ix` end here. -/
def regularEnd (L : Nat) (w hi : Int) : Int := min hi ((w - L) / 3 + 1)

/-- The vectors of `RefSums`; what it leaves to the loop behind them starts at the second result. -/
def refVectors (ops : Ops) (B : Cells Int F32) (L : Nat) (w step lo hi : Int) : Option (Cells Int F32 × Int) :=
  if step = 3 then do
    let regular := regularEnd L w hi
    let Cr ← (List.range (rounds ops.lanes lo regular)).foldlM
      (fun Cr (k : Nat) => refVec ops B L w (lo + k * ops.lanes) Cr) fresh
    let ix := vectorEnd ops.lanes lo regular
    if ix < regular ∧ ops.lanes ≤ regular - lo then do
      let Cr ← refVec ops B L w (regular - ops.lanes) Cr
      some (Cr, regular)
    else some (Cr, ix)
  else some (fresh, lo)

/-- `RefSums` -/
def refSums (ops : Ops) (B : Cells Int F32) (L : Nat) (w step lo hi : Int) : Option (Cells Int F32) := do
  let r ← refVectors ops B L w step lo hi
  scalars (fun ix => decide (0 ≤ ix ∧ ix < w)) id
    (fun ix => sumOf ops.add L fun i => B (position w L step ix + i)) r.2 hi r.1

/-! ## The slabs of a batch -/

/-- The reference cubes and the candidates of an offset are in the volume along z. -/
structure Frames (vol : Volume) (L : Nat) (s : Shift) : Prop where
  first : 0 ≤ s.z0
  last : s.z0 + L ≤ vol.t
  shiftedFirst : 0 ≤ s.z0 + s.dz
  shiftedLast : s.z0 + s.dz + L ≤ vol.t

/-- The rows of a band and the rows they are compared with are in the volume, and they fit the
band's planes. -/
structure Rows (vol : Volume) (s : Shift) (band : Band) : Prop where
  first : 0 ≤ band.yLo
  last : band.yHi ≤ vol.h
  shiftedFirst : 0 ≤ band.yLo + s.dy
  shiftedLast : band.yHi + s.dy ≤ vol.h
  base : band.row0 ≤ band.yLo
  fit : band.yHi ≤ band.row0 + kBandSlabRows

section SlabFills

variable {ops : Ops} {vol : Volume} {L : Nat} {s : Shift} {band : Band}

/-- The squares along z. -/
def slabValue (ops : Ops) (vol : Volume) (L : Nat) (s : Shift) (op : F32 → F32 → F32 → F32) (dx y x : Int) : F32 :=
  (List.range L).foldl (fun acc (k : Nat) =>
    let e := ops.sub (vol.value (s.z0 + k) y x) (vol.value (s.z0 + k + s.dz) (y + s.dy) (x + dx))
    op e e acc) F32.zero

theorem slabSum_eq {op : F32 → F32 → F32 → F32} {dx y x : Int} (hz : Frames vol L s)
    (hy : 0 ≤ y ∧ y < vol.h) (hy' : 0 ≤ y + s.dy ∧ y + s.dy < vol.h) (hx : 0 ≤ x ∧ x < vol.w)
    (hx' : 0 ≤ x + dx ∧ x + dx < vol.w) :
    slabSum ops vol L s op dx y x = some (slabValue ops vol L s op dx y x) := by
  obtain ⟨hfirst, hlast, hfirst', hlast'⟩ := hz
  refine foldlM_eq_some fun acc k hk => ?_
  have hk : k < L := List.mem_range.mp hk
  have hp : vol.load (s.z0 + k) y x = some (vol.value (s.z0 + k) y x) :=
    if_pos ⟨⟨by omega, by omega⟩, hy, hx⟩
  have hq : vol.load (s.z0 + k + s.dz) (y + s.dy) (x + dx) =
      some (vol.value (s.z0 + k + s.dz) (y + s.dy) (x + dx)) :=
    if_pos ⟨⟨by omega, by omega⟩, hy', hx'⟩
  rw [hp, hq]
  rfl

/-- The addition of a column: where `MulAdd` is not fused, the columns of whole vectors are
rounded as it does. -/
def slabOp (ops : Ops) (w dx x : Int) : F32 → F32 → F32 → F32 :=
  if ops.nativeFma = false ∧ x < vectorEnd ops.lanes (max 0 (-dx)) (min w (w - dx)) then ops.mulAdd else ops.fma

/-- What the cells of a batch are to hold. -/
def slabsValue (ops : Ops) (vol : Volume) (L : Nat) (s : Shift) (dx0 : Int) (band : Band) (c : SlabCell) : Option F32 :=
  slabSum ops vol L s (slabOp ops vol.w (dx0 + c.1) c.2.2) (dx0 + c.1) (band.row0 + c.2.1) c.2.2

/-- The cells of row `y` of offset `j`, from column `a` to `b`. -/
def Columns (band : Band) (j : Nat) (y a b : Int) (c : SlabCell) : Prop := ∃ x, a ≤ x ∧ x < b ∧ c = slabCell band j y x

variable {D : Nat} {dx0 y x s0 s1 : Int} {j : Nat}

theorem column_good {op : F32 → F32 → F32 → F32} (hz : Frames vol L s) (hband : Rows vol s band)
    (hy : band.yLo ≤ y ∧ y < band.yHi) (hj : j < kSlabBatch) (hx : lo dx0 j ≤ x ∧ x < hi vol dx0 j)
    (hop : op = slabOp ops vol.w (dx0 + j) x) :
    Fills.Good (inPlanes vol.w) (slabCell band j y) (slabsValue ops vol L s dx0 band)
      (slabSum ops vol L s op (dx0 + j) y) x := by
  obtain ⟨hfirst, hlast, hfirst', hlast', hbase, hfit⟩ := hband
  have hbounds : 0 ≤ x ∧ x < vol.w ∧ 0 ≤ x + (dx0 + j) ∧ x + (dx0 + j) < vol.w := by
    unfold lo hi at hx
    omega
  have hrow : band.row0 + (y - band.row0) = y := by omega
  refine ⟨?_, ?_, ?_⟩
  · exact decide_eq_true ⟨hj, ⟨by unfold slabCell; dsimp only; omega, by unfold slabCell; dsimp only; omega⟩,
      hbounds.1, hbounds.2.1⟩
  · unfold slabsValue slabCell
    dsimp only
    rw [hrow, hop]
  · rw [slabSum_eq hz (by omega) (by omega) (by omega) (by omega)]
    rfl

section Native

variable (hnative : ops.nativeFma = true) (hz : Frames vol L s) (hband : Rows vol s band)
  (hy : band.yLo ≤ y ∧ y < band.yHi) (hD : D ≤ kSlabBatch)

include hnative

/-- With a fused `MulAdd` all columns are added alike. -/
theorem slabOp_native {w dx : Int} : ops.mulAdd = slabOp ops w dx x ∧ ops.fma = slabOp ops w dx x := by
  have hop : slabOp ops w dx x = ops.fma := if_neg (by rw [hnative]; simp)
  rw [hop]
  exact ⟨ops.mulAdd_eq hnative, rfl⟩

include hz hband hy hD

theorem one_fills (hj : j < D) (hlo : lo dx0 j ≤ x) (hhi : x + ops.lanes ≤ hi vol dx0 j) :
    Fills (slabsValue ops vol L s dx0 band) (Columns band j y x (x + ops.lanes)) (one ops vol L s dx0 band y j x) :=
  Fills.vec fun i hlo' hhi' =>
    column_good hz hband hy (by omega) (by omega) (slabOp_native hnative).1

theorem all_fills (hlo : cLo dx0 ≤ x) (hhi : x + ops.lanes ≤ cHi vol D dx0) :
    Fills (slabsValue ops vol L s dx0 band) (fun c => ∃ j ∈ List.range D, Columns band j y x (x + ops.lanes) c)
      (all ops vol L s D dx0 band y x) := by
  refine Fills.each fun j hj => ?_
  have hj : j < D := List.mem_range.mp hj
  apply one_fills hnative hz hband hy hD hj
  · unfold cLo at hlo
    unfold lo
    omega
  · unfold cHi at hhi
    unfold hi
    omega

/-- The common columns of all offsets. -/
theorem commonRun_fills (hcommon : ops.lanes ≤ cHi vol D dx0 - cLo dx0) :
    Fills (slabsValue ops vol L s dx0 band)
      (fun c => ∃ j ∈ List.range D, Columns band j y (cLo dx0) (cHi vol D dx0) c)
      (commonRun ops vol L s D dx0 band y) := by
  have hpos := ops.lanes_pos
  have hend : vectorEnd ops.lanes (cLo dx0) (cHi vol D dx0) =
      cLo dx0 + rounds ops.lanes (cLo dx0) (cHi vol D dx0) * ops.lanes := rfl
  obtain ⟨hle, hle'⟩ := vectorEnd_le hpos (show cLo dx0 ≤ cHi vol D dx0 by omega)
  have hlast := lt_vectorEnd hpos (show cLo dx0 ≤ cHi vol D dx0 by omega)
  have hvectors : Fills (slabsValue ops vol L s dx0 band)
      (fun c => ∃ j ∈ List.range D, Columns band j y (cLo dx0) (vectorEnd ops.lanes (cLo dx0) (cHi vol D dx0)) c)
      (fun A => (List.range (rounds ops.lanes (cLo dx0) (cHi vol D dx0))).foldlM
        (fun A (k : Nat) => all ops vol L s D dx0 band y (cLo dx0 + k * ops.lanes) A) A) := by
    refine (Fills.each fun (k : Nat) hk => ?_).mono (S := fun c => ∃ k ∈ List.range (rounds ops.lanes (cLo dx0) (cHi vol D dx0)),
      ∃ j ∈ List.range D, Columns band j y (cLo dx0 + k * ops.lanes) (cLo dx0 + k * ops.lanes + ops.lanes) c) ?_
    · obtain ⟨hstart, hstop⟩ := vector_inside hpos (List.mem_range.mp hk)
      exact all_fills hnative hz hband hy hD hstart (by omega)
    · rintro c ⟨j, hj, i, hlo, hhi, hc⟩
      obtain ⟨k, hk, hstart, hstop⟩ := exists_vector hpos hlo hhi
      exact ⟨k, List.mem_range.mpr hk, j, hj, i, hstart, hstop, hc⟩
  unfold commonRun
  by_cases hmore : vectorEnd ops.lanes (cLo dx0) (cHi vol D dx0) < cHi vol D dx0
  · simp only [if_pos hmore]
    refine (hvectors.comp (all_fills hnative hz hband hy hD (by omega) (by omega))).mono ?_
    rintro c ⟨j, hj, i, hlo, hhi, hc⟩
    by_cases hi : i < vectorEnd ops.lanes (cLo dx0) (cHi vol D dx0)
    · exact .inl ⟨j, hj, i, hlo, hi, hc⟩
    · exact .inr ⟨j, hj, i, by omega, by omega, hc⟩
  · simp only [if_neg hmore]
    refine (hvectors.comp (Fills.nothing (S := fun _ => False) fun _ h => h)).mono ?_
    rintro c ⟨j, hj, i, hlo, hhi, hc⟩
    exact .inl ⟨j, hj, i, hlo, by omega, hc⟩

/-- Columns of one offset. -/
theorem ownRun_fills (hj : j < D) (hlo : lo dx0 j ≤ s0) (hhi : s1 ≤ hi vol dx0 j) :
    Fills (slabsValue ops vol L s dx0 band) (Columns band j y s0 s1) (ownRun ops vol L s dx0 band y j s0 s1) := by
  have hpos := ops.lanes_pos
  have hgood : ∀ op, (op = ops.mulAdd ∨ op = ops.fma) → ∀ i, s0 ≤ i → i < s1 →
      Fills.Good (inPlanes vol.w) (slabCell band j y) (slabsValue ops vol L s dx0 band)
        (slabSum ops vol L s op (dx0 + j) y) i := by
    intro op hop i h0 h1
    refine column_good hz hband hy (by omega) (by omega) ?_
    rcases hop with rfl | rfl
    · exact (slabOp_native hnative).1
    · exact (slabOp_native hnative).2
  unfold ownRun
  by_cases hnone : s1 ≤ s0
  · simp only [if_pos hnone]
    refine Fills.nothing ?_
    rintro c ⟨i, h0, h1, -⟩
    omega
  simp only [if_neg hnone]
  by_cases hwide : ops.lanes ≤ hi vol dx0 j - lo dx0 j
  · simp only [if_pos hwide]
    obtain ⟨hle, hle'⟩ := vectorEnd_le hpos (show s0 ≤ s1 by omega)
    have hlast := lt_vectorEnd hpos (show s0 ≤ s1 by omega)
    have hvectors : Fills (slabsValue ops vol L s dx0 band) (Columns band j y s0 (vectorEnd ops.lanes s0 s1))
        (vectors (inPlanes vol.w) (slabCell band j y) ops.lanes (slabSum ops vol L s ops.mulAdd (dx0 + j) y) s0 s1) :=
      Fills.vectors hpos fun i h0 h1 => hgood ops.mulAdd (.inl rfl) i h0 (by omega)
    by_cases hmore : vectorEnd ops.lanes s0 s1 < s1
    · simp only [if_pos hmore]
      refine (hvectors.comp (one_fills hnative hz hband hy hD hj (le_max_left _ _) (by omega))).mono ?_
      rintro c ⟨i, h0, h1, hc⟩
      by_cases hi : i < vectorEnd ops.lanes s0 s1
      · exact .inl ⟨i, h0, hi, hc⟩
      · exact .inr ⟨i, by omega, by omega, hc⟩
    · simp only [if_neg hmore]
      refine (hvectors.comp (Fills.nothing (S := fun _ => False) fun _ h => h)).mono ?_
      rintro c ⟨i, h0, h1, hc⟩
      exact .inl ⟨i, h0, by omega, hc⟩
  · simp only [if_neg hwide]
    exact Fills.scalars (hgood ops.fma (.inr rfl))

/-- A row of the batch: every offset has all of its columns. -/
theorem slabsRow_fills : Fills (slabsValue ops vol L s dx0 band)
    (fun c => ∃ j ∈ List.range D, Columns band j y (lo dx0 j) (hi vol dx0 j) c)
    (slabsRow ops vol L s D dx0 band y) := by
  have hpos := ops.lanes_pos
  unfold slabsRow
  by_cases hcommon : ops.lanes ≤ cHi vol D dx0 - cLo dx0
  · simp only [if_pos hcommon]
    have hleft : ∀ j ∈ List.range D, Fills (slabsValue ops vol L s dx0 band)
        (Columns band j y (lo dx0 j) (min (cLo dx0) (hi vol dx0 j)))
        (ownRun ops vol L s dx0 band y j (lo dx0 j) (min (cLo dx0) (hi vol dx0 j))) := fun j hj =>
      ownRun_fills hnative hz hband hy hD (List.mem_range.mp hj) (Int.le_refl _) (min_le_right _ _)
    have hright : ∀ j ∈ List.range D, Fills (slabsValue ops vol L s dx0 band)
        (Columns band j y (max (cHi vol D dx0) (lo dx0 j)) (hi vol dx0 j))
        (ownRun ops vol L s dx0 band y j (max (cHi vol D dx0) (lo dx0 j)) (hi vol dx0 j)) := fun j hj =>
      ownRun_fills hnative hz hband hy hD (List.mem_range.mp hj) (le_max_right _ _) (Int.le_refl _)
    have hown := Fills.each fun j hj => (hleft j hj).comp (hright j hj)
    refine ((commonRun_fills hnative hz hband hy hD hcommon).comp hown).mono ?_
    rintro c ⟨j, hj, i, h0, h1, hc⟩
    by_cases hleft : i < cLo dx0
    · exact .inr ⟨j, hj, .inl ⟨i, h0, by omega, hc⟩⟩
    · by_cases hright : cHi vol D dx0 ≤ i
      · exact .inr ⟨j, hj, .inr ⟨i, by omega, h1, hc⟩⟩
      · exact .inl ⟨j, hj, i, by omega, by omega, hc⟩
  · simp only [if_neg hcommon]
    exact Fills.each fun j hj => ownRun_fills hnative hz hband hy hD (List.mem_range.mp hj) (Int.le_refl _)
      (Int.le_refl _)

end Native

/-- A row of one offset, whole vectors first; `MulAdd` is not fused. -/
theorem slabRow_fills (hnative : ops.nativeFma = false) (hz : Frames vol L s) (hband : Rows vol s band)
    (hy : band.yLo ≤ y ∧ y < band.yHi) (hj : j < kSlabBatch) :
    Fills (slabsValue ops vol L s dx0 band) (Columns band j y (lo dx0 j) (hi vol dx0 j)) (fun A => do
      let A ← vectors (inPlanes vol.w) (slabCell band j y) ops.lanes
        (slabSum ops vol L s ops.mulAdd (dx0 + j) y) (lo dx0 j) (hi vol dx0 j) A
      scalars (inPlanes vol.w) (slabCell band j y) (slabSum ops vol L s ops.fma (dx0 + j) y)
        (vectorEnd ops.lanes (lo dx0 j) (hi vol dx0 j)) (hi vol dx0 j) A) := by
  have hpos := ops.lanes_pos
  have hsplit : ∀ x, slabOp ops vol.w (dx0 + j) x =
      if x < vectorEnd ops.lanes (lo dx0 j) (hi vol dx0 j) then ops.mulAdd else ops.fma := by
    intro x
    unfold slabOp lo hi
    rw [hnative]
    simp
  have hvectors : Fills (slabsValue ops vol L s dx0 band)
      (Columns band j y (lo dx0 j) (vectorEnd ops.lanes (lo dx0 j) (hi vol dx0 j)))
      (vectors (inPlanes vol.w) (slabCell band j y) ops.lanes (slabSum ops vol L s ops.mulAdd (dx0 + j) y)
        (lo dx0 j) (hi vol dx0 j)) := by
    refine Fills.vectors hpos fun i h0 h1 => column_good hz hband hy hj ⟨h0, ?_⟩ (by rw [hsplit, if_pos h1])
    by_cases hle : lo dx0 j ≤ hi vol dx0 j
    · have hend := vectorEnd_le hpos hle
      omega
    · have hnone := rounds_empty hpos (show hi vol dx0 j ≤ lo dx0 j by omega)
      unfold vectorEnd at h1
      rw [hnone] at h1
      simp at h1
      omega
  have hscalars : Fills (slabsValue ops vol L s dx0 band)
      (Columns band j y (vectorEnd ops.lanes (lo dx0 j) (hi vol dx0 j)) (hi vol dx0 j))
      (scalars (inPlanes vol.w) (slabCell band j y) (slabSum ops vol L s ops.fma (dx0 + j) y)
        (vectorEnd ops.lanes (lo dx0 j) (hi vol dx0 j)) (hi vol dx0 j)) := by
    refine Fills.scalars fun i h0 h1 => column_good hz hband hy hj ⟨?_, h1⟩ (by rw [hsplit, if_neg (by omega)])
    have hend : vectorEnd ops.lanes (lo dx0 j) (hi vol dx0 j) =
      lo dx0 j + rounds ops.lanes (lo dx0 j) (hi vol dx0 j) * ops.lanes := rfl
    have hmul : 0 ≤ (rounds ops.lanes (lo dx0 j) (hi vol dx0 j) : Int) * ops.lanes :=
      Int.mul_nonneg (by omega) (by omega)
    omega
  refine (hvectors.comp hscalars).mono ?_
  rintro c ⟨i, h0, h1, hc⟩
  by_cases hi : i < vectorEnd ops.lanes (lo dx0 j) (Bm4d.hi vol dx0 j)
  · exact .inl ⟨i, h0, hi, hc⟩
  · exact .inr ⟨i, by omega, h1, hc⟩

/-- After a batch every cell of its offsets holds the offset's sum, on every target. -/
theorem batchSlabs_eq (hz : Frames vol L s) (hband : Rows vol s band) (hD : D ≤ kSlabBatch) :
    ∃ A, batchSlabs ops vol L s D dx0 band = some A ∧ ∀ j < D, ∀ y, band.yLo ≤ y → y < band.yHi →
      ∀ x, lo dx0 j ≤ x → x < hi vol dx0 j → A (j, y - band.row0, x) =
        some (slabValue ops vol L s (slabOp ops vol.w (dx0 + j) x) (dx0 + j) y x) := by
  have hvalue : ∀ j, ∀ y, band.yLo ≤ y → y < band.yHi → ∀ x, lo dx0 j ≤ x → x < hi vol dx0 j →
      slabsValue ops vol L s dx0 band (slabCell band j y x) =
        some (slabValue ops vol L s (slabOp ops vol.w (dx0 + j) x) (dx0 + j) y x) := by
    intro j y h0 h1 x hx0 hx1
    obtain ⟨hfirst, hlast, hfirst', hlast', -, -⟩ := hband
    have hrow : band.row0 + (y - band.row0) = y := by omega
    unfold slabsValue slabCell
    dsimp only
    unfold lo at hx0
    unfold hi at hx1
    rw [hrow, slabSum_eq hz (by omega) (by omega) (by omega) (by omega)]
  cases hnative : ops.nativeFma with
  | true =>
    have hfills : Fills (slabsValue ops vol L s dx0 band)
        (fun c => ∃ y ∈ Int.range band.yLo band.yHi, ∃ j ∈ List.range D, Columns band j y (lo dx0 j) (hi vol dx0 j) c)
        (slabs ops vol L s D dx0 band) :=
      Fills.each fun y hy => slabsRow_fills hnative hz hband (Int.mem_range_iff.mp hy) hD
    obtain ⟨A, hrun, hA, -⟩ := hfills fresh
    refine ⟨A, ?_, ?_⟩
    · unfold batchSlabs
      rw [hnative, if_pos rfl, hrun]
    · intro j hj y h0 h1 x hx0 hx1
      rw [← hvalue j y h0 h1 x hx0 hx1]
      exact hA _ ⟨y, Int.mem_range_iff.mpr ⟨h0, h1⟩, j, List.mem_range.mpr hj, x, hx0, hx1, rfl⟩
  | false =>
    have hfills : Fills (slabsValue ops vol L s dx0 band)
        (fun c => ∃ j ∈ List.range D, ∃ y ∈ Int.range band.yLo band.yHi, Columns band j y (lo dx0 j) (hi vol dx0 j) c)
        (fun A => (List.range D).foldlM (fun A j => slab ops vol L s band j (dx0 + j) (lo dx0 j) (hi vol dx0 j) A) A) :=
      Fills.each fun j hj => Fills.each fun y hy => by
        have hj : j < D := List.mem_range.mp hj
        exact slabRow_fills hnative hz hband (Int.mem_range_iff.mp hy) (by omega)
    obtain ⟨A, hrun, hA, -⟩ := hfills fresh
    refine ⟨A, ?_, ?_⟩
    · unfold batchSlabs
      rw [hnative, if_neg Bool.false_ne_true]
      exact hrun
    · intro j hj y h0 h1 x hx0 hx1
      rw [← hvalue j y h0 h1 x hx0 hx1]
      exact hA _ ⟨j, List.mem_range.mpr hj, y, Int.mem_range_iff.mpr ⟨h0, h1⟩, x, hx0, hx1, rfl⟩

end SlabFills

/-! ## The window of a row and its references -/

/-- A sum in order. -/
def sumValue (add : F32 → F32 → F32) (L : Nat) (term : Nat → F32) : F32 :=
  (List.range' 1 (L - 1)).foldl (fun acc i => add acc (term i)) (term 0)

section Sums

variable {ops : Ops} {L : Nat} {w : Int}

theorem sumOf_eq {add : F32 → F32 → F32} {term : Nat → Option F32} {value : Nat → F32} (hL : 0 < L)
    (h : ∀ i < L, term i = some (value i)) : sumOf add L term = some (sumValue add L value) := by
  unfold sumOf
  rw [h 0 hL]
  refine foldlM_eq_some fun acc i hi => ?_
  have hi : i < L := by have := List.mem_range'_1.mp hi; omega
  rw [h i hi]
  rfl

theorem sumValue_proper {term : Nat → F32} (hL : 0 < L) (h : ∀ i < L, Proper (term i)) :
    Proper (sumValue ops.add L term) := by
  unfold sumValue
  have hterms : ∀ i ∈ List.range' 1 (L - 1), Proper (term i) := by
    intro i hi
    have hi := List.mem_range'_1.mp hi
    exact h i (by omega)
  have hfirst := h 0 hL
  generalize term 0 = acc at hfirst
  generalize List.range' 1 (L - 1) = l at hterms
  induction l generalizing acc with
  | nil => exact hfirst
  | cons i l ih =>
    exact ih (ops.add acc (term i)) (ops.add_proper hfirst (hterms i List.mem_cons_self))
      fun i hi => hterms i (List.mem_cons_of_mem _ hi)

/-- The window sums the slab rows where all of them have values. -/
theorem window_eq {A : Cells SlabCell F32} {j : Nat} {y0 xLo xHi : Int} {value : Nat → Int → F32}
    (hL : 0 < L) (hlo : 0 ≤ xLo) (hle : xLo ≤ xHi) (hhi : xHi ≤ w)
    (hA : ∀ i < L, ∀ x, xLo ≤ x → x < xHi → A (j, y0 + (i : Nat), x) = some (value i x)) :
    ∃ B, window ops L A w j y0 xLo xHi = some B ∧
      ∀ x, xLo ≤ x → x < xHi → B x = some (sumValue ops.add L fun i => value i x) := by
  have hpos := ops.lanes_pos
  obtain ⟨hstart, hstop⟩ := vectorEnd_le hpos hle
  have hlast := lt_vectorEnd hpos hle
  have hpad : kWindowPad = 64 := rfl
  have hsum : ∀ x, xLo ≤ x → x < xHi →
      (sumOf ops.add L fun i => A (j, y0 + (i : Nat), x)) = some (sumValue ops.add L fun i => value i x) :=
    fun x h0 h1 => sumOf_eq hL fun i hi => hA i hi x h0 h1
  have hgood : ∀ x, xLo ≤ x → x < xHi →
      Fills.Good (inWindow w) id (fun x => sumOf ops.add L fun i => A (j, y0 + (i : Nat), x))
        (fun x => sumOf ops.add L fun i => A (j, y0 + (i : Nat), x)) x := by
    intro x h0 h1
    refine ⟨decide_eq_true (by dsimp only [id]; omega), rfl, ?_⟩
    rw [hsum x h0 h1]
    rfl
  have hvectors := Fills.vectors hpos fun i h0 (h1 : i < vectorEnd ops.lanes xLo xHi) => hgood i h0 (by omega)
  obtain ⟨B, hrun, hB⟩ : ∃ B, window ops L A w j y0 xLo xHi = some B ∧ ∀ x, xLo ≤ x → x < xHi →
      B x = sumOf ops.add L fun i => A (j, y0 + (i : Nat), x) := by
    by_cases hmore : vectorEnd ops.lanes xLo xHi < xHi ∧ ops.lanes ≤ xHi - xLo
    · have hend := Fills.vec (x := xHi - ops.lanes) (n := ops.lanes) fun i h0 h1 => hgood i (by omega) (by omega)
      obtain ⟨B, hrun, hB, -⟩ := (hvectors.comp hend) fresh
      refine ⟨B, ?_, ?_⟩
      · unfold window
        simp only [if_pos hmore]
        exact hrun
      · intro x h0 h1
        by_cases hx : x < vectorEnd ops.lanes xLo xHi
        · exact hB x (.inl ⟨x, h0, hx, rfl⟩)
        · exact hB x (.inr ⟨x, by omega, by omega, rfl⟩)
    · have hend : Fills (fun x => sumOf ops.add L fun i => A (j, y0 + (i : Nat), x))
          (fun c => ∃ i, vectorEnd ops.lanes xLo xHi ≤ i ∧ i < xHi ∧ c = id i)
          (scalars (inWindow w) id (fun x => sumOf ops.add L fun i => A (j, y0 + (i : Nat), x))
            (vectorEnd ops.lanes xLo xHi) xHi) :=
        Fills.scalars fun i h0 h1 => hgood i (by omega) h1
      obtain ⟨B, hrun, hB, -⟩ := (hvectors.comp hend) fresh
      refine ⟨B, ?_, ?_⟩
      · unfold window
        simp only [if_neg hmore]
        exact hrun
      · intro x h0 h1
        by_cases hx : x < vectorEnd ops.lanes xLo xHi
        · exact hB x (.inl ⟨x, h0, hx, rfl⟩)
        · exact hB x (.inr ⟨x, by omega, h1, rfl⟩)
  exact ⟨B, hrun, fun x h0 h1 => (hB x h0 h1).trans (hsum x h0 h1)⟩

theorem position_regular {ix : Int} (h : ix < (w - L) / 3 + 1) : position w L 3 ix = 3 * ix := by
  unfold position
  rw [if_neg (by omega)]
  omega

/-- The lanes of the vectors are the sums of the references at `3 k`. -/
theorem refLane_eq {add : F32 → F32 → F32} {B : Cells Int F32} {k : Int} (hL : L = 4 ∨ L = 5) :
    refLane add B L k = sumOf add L fun i => B (3 * k + (i : Nat)) := by
  have h3 : (3 : Int) * k + 3 + 1 = 3 * k + 4 := by omega
  unfold refLane sumOf
  rcases hL with rfl | rfl
  · simp [List.range'_succ, Option.bind_assoc]
  · simp [List.range'_succ, Option.bind_assoc, h3]

variable {B : Cells Int F32} {lo hi : Int} {value : Int → F32}

/-- The references of a row, those with regular columns a vector at a time. -/
theorem refSums_eq (hL : L = 4 ∨ L = 5) (hlo : 0 ≤ lo) (hle : lo ≤ hi) (hhi : hi ≤ w)
    (hB : ∀ ix, lo ≤ ix → ix < hi → ∀ i < L,
      B (position w L 3 ix + (i : Nat)) = some (value (position w L 3 ix + (i : Nat)))) :
    ∃ Cr, refSums ops B L w 3 lo hi = some Cr ∧ ∀ ix, lo ≤ ix → ix < hi →
      Cr ix = some (sumValue ops.add L fun i => value (position w L 3 ix + (i : Nat))) := by
  have hpos := ops.lanes_pos
  have hpad : kWindowPad = 64 := rfl
  have hsum : ∀ ix, lo ≤ ix → ix < hi → (sumOf ops.add L fun i => B (position w L 3 ix + (i : Nat))) =
      some (sumValue ops.add L fun i => value (position w L 3 ix + (i : Nat))) :=
    fun ix h0 h1 => sumOf_eq (by omega) fun i hi => hB ix h0 h1 i hi
  have hgood : ∀ v : Int → Option F32, ∀ ix, lo ≤ ix → ix < hi →
      v ix = (sumOf ops.add L fun i => B (position w L 3 ix + (i : Nat))) →
      Fills.Good (fun ix => decide (0 ≤ ix ∧ ix < w)) id
        (fun ix => sumOf ops.add L fun i => B (position w L 3 ix + (i : Nat))) v ix := by
    intro v ix h0 h1 hv
    refine ⟨decide_eq_true (by dsimp only [id]; omega), hv, ?_⟩
    rw [hv, hsum ix h0 h1]
    rfl
  have hregular : ∀ ix, ix < regularEnd L w hi →
      refLane ops.add B L ix = sumOf ops.add L fun i => B (position w L 3 ix + (i : Nat)) := by
    intro ix hix
    unfold regularEnd at hix
    rw [refLane_eq hL, position_regular (by omega)]
  have hvec : ∀ k, lo ≤ k → k + ops.lanes ≤ regularEnd L w hi →
      Fills (fun ix => sumOf ops.add L fun i => B (position w L 3 ix + (i : Nat)))
        (fun c => ∃ i, k ≤ i ∧ i < k + ops.lanes ∧ c = id i) (refVec ops B L w k) := by
    intro k hk hend
    have hbounds := hend
    unfold regularEnd at hbounds
    have hloads : inWindow w (3 * k) ∧ inWindow w (3 * k + 3 + 3 * ops.lanes - 1) :=
      ⟨decide_eq_true (by omega), decide_eq_true (by omega)⟩
    unfold refVec
    simp only [if_pos hloads]
    exact Fills.vec fun i h0 h1 => hgood _ i (by omega) (by omega) (hregular i (by omega))
  have hrest : ∀ start, lo ≤ start → Fills (fun ix => sumOf ops.add L fun i => B (position w L 3 ix + (i : Nat)))
      (fun c => ∃ i, start ≤ i ∧ i < hi ∧ c = id i) (scalars (fun ix => decide (0 ≤ ix ∧ ix < w)) id
        (fun ix => sumOf ops.add L fun i => B (position w L 3 ix + (i : Nat))) start hi) :=
    fun start h => Fills.scalars fun i h0 h1 => hgood _ i (by omega) h1 rfl
  have hvectors : Fills (fun ix => sumOf ops.add L fun i => B (position w L 3 ix + (i : Nat)))
      (fun c => ∃ i, lo ≤ i ∧ i < vectorEnd ops.lanes lo (regularEnd L w hi) ∧ c = id i)
      (fun Cr => (List.range (rounds ops.lanes lo (regularEnd L w hi))).foldlM
        (fun Cr (k : Nat) => refVec ops B L w (lo + k * ops.lanes) Cr) Cr) := by
    refine (Fills.each fun (k : Nat) hk => ?_).mono (S := fun c =>
      ∃ k ∈ List.range (rounds ops.lanes lo (regularEnd L w hi)),
        ∃ i, lo + (k : Nat) * ops.lanes ≤ i ∧ i < lo + k * ops.lanes + ops.lanes ∧ c = id i) ?_
    · have hk : k < rounds ops.lanes lo (regularEnd L w hi) := List.mem_range.mp hk
      obtain ⟨hstart, hstop⟩ := vector_inside hpos hk
      refine hvec _ hstart ?_
      by_cases hsome : lo ≤ regularEnd L w hi
      · have hend := vectorEnd_le hpos hsome
        omega
      · rw [rounds_empty hpos (by omega)] at hk
        omega
    · rintro c ⟨i, h0, h1, hc⟩
      obtain ⟨k, hk, hstart, hstop⟩ := exists_vector hpos h0 h1
      exact ⟨k, List.mem_range.mpr hk, i, hstart, hstop, hc⟩
  obtain ⟨Cr, hrun, hCr⟩ : ∃ Cr, refSums ops B L w 3 lo hi = some Cr ∧ ∀ ix, lo ≤ ix → ix < hi →
      Cr ix = sumOf ops.add L fun i => B (position w L 3 ix + (i : Nat)) := by
    have hstart : lo ≤ vectorEnd ops.lanes lo (regularEnd L w hi) := by
      have hmul : 0 ≤ (rounds ops.lanes lo (regularEnd L w hi) : Int) * ops.lanes :=
        Int.mul_nonneg (by omega) (by omega)
      unfold vectorEnd
      omega
    obtain ⟨Cr₁, hrun₁, hCr₁, -⟩ := hvectors fresh
    by_cases hmore : vectorEnd ops.lanes lo (regularEnd L w hi) < regularEnd L w hi ∧
        ops.lanes ≤ regularEnd L w hi - lo
    · have hlast := lt_vectorEnd hpos (show lo ≤ regularEnd L w hi by omega)
      obtain ⟨Cr₂, hrun₂, hCr₂, hkeep₂⟩ := hvec (regularEnd L w hi - ops.lanes) (by omega) (by omega) Cr₁
      obtain ⟨Cr₃, hrun₃, hCr₃, hkeep₃⟩ := hrest (regularEnd L w hi) (by omega) Cr₂
      refine ⟨Cr₃, ?_, ?_⟩
      · unfold refSums refVectors
        simp only [if_true, hrun₁, Option.bind_eq_bind, Option.bind_some, if_pos hmore, hrun₂, hrun₃]
      · intro ix h0 h1
        by_cases hv : ix < vectorEnd ops.lanes lo (regularEnd L w hi)
        · exact hkeep₃ ix (hkeep₂ ix (hCr₁ ix ⟨ix, h0, hv, rfl⟩))
        · by_cases hr : ix < regularEnd L w hi
          · exact hkeep₃ ix (hCr₂ ix ⟨ix, by omega, by omega, rfl⟩)
          · exact hCr₃ ix ⟨ix, by omega, h1, rfl⟩
    · obtain ⟨Cr₃, hrun₃, hCr₃, hkeep₃⟩ := hrest (vectorEnd ops.lanes lo (regularEnd L w hi)) hstart Cr₁
      refine ⟨Cr₃, ?_, ?_⟩
      · unfold refSums refVectors
        simp only [if_true, hrun₁, Option.bind_eq_bind, Option.bind_some, if_neg hmore, hrun₃]
      · intro ix h0 h1
        by_cases hv : ix < vectorEnd ops.lanes lo (regularEnd L w hi)
        · exact hkeep₃ ix (hCr₁ ix ⟨ix, h0, hv, rfl⟩)
        · exact hCr₃ ix ⟨ix, by omega, h1, rfl⟩
  exact ⟨Cr, hrun, fun ix h0 h1 => (hCr ix h0 h1).trans (hsum ix h0 h1)⟩

end Sums

end NssFactory.Cpu.Bm4d
