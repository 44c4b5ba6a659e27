import Mathlib.Tactic.Ring
import NssFactory.Cpu.JointMatch
import NssFactory.Lib.CInt

/-!
# The memory that `spatial_match` touches

The accesses of the spatial matchers of `cpu/bm`: `SpatialMatch` and the kernels of the 8-blocks
(`ssd.cpp`), the fast paths of the 4-, 12- and 16-blocks (`spatial4.cpp`, `spatial12.cpp`,
`spatial16.cpp`) and `collect_spatial` (`matcher.hpp`). A step of the model is none where the
program has no defined behaviour: an `int` overflows, a vector is loaded from outside of the
image, or a distance is stored behind the end of the buffer. Of the distances only their
finiteness decides which blocks are read, so it is a parameter.

The buffers hold the widest row of the frontend's largest range; the matcher takes any range.
`runs_iff` says for which arguments all accesses are in bounds.
-/

namespace NssFactory.Cpu.SpatialBounds

open CInt Loops

def kBmMaxRange : Nat := 64

/-- What the matcher is compiled for: the vectors, `NSS_AVX2_EXPERIMENT`, and whether the
12-blocks have their path. -/
structure Build where
  target : Target
  experiment : Nat
  b12Fast : Bool

/-! ## Loads and stores -/

/-- The vectors of `lanes` that make up `n` elements: where each starts and what it holds. -/
def chunks (lanes n : Nat) : List (Nat × Nat) :=
  (List.range (n / lanes)).map (fun k => (k * lanes, lanes)) ++
    if n % lanes = 0 then [] else [(n / lanes * lanes, n % lanes)]

/-- An image and the pitch of its rows. -/
structure Plane where
  stride : Int
  width : Int
  height : Int

/-- A search window: the places of its blocks. -/
structure Window where
  top : Int
  bottom : Int
  left : Int
  right : Int

namespace Window

variable (w : Window)

def rows : List Int := Int.range w.top (w.bottom + 1)

def columns : List Int := Int.range w.left (w.right + 1)

/-- `candidate_count`, also `span` -/
def count : Nat := (w.right - w.left + 1).toNat

end Window

/-- `distances[x]` to `distances[x + n - 1]` are set; the buffer has `2 * kBmMaxRange + 1`. -/
def store (x n : Nat) : Option Unit := if x + n ≤ 2 * kBmMaxRange + 1 then some () else none

namespace Plane

variable (p : Plane)

/-- `n` floats from `ref + o` on, all in one row of the image. -/
def load (o : Int) (n : Nat) : Option Unit :=
  if 0 ≤ o ∧ o / p.stride < p.height ∧ o % p.stride + n ≤ p.width then some () else none

def loads (lanes n : Nat) (o : Int) : Option Unit :=
  (chunks lanes n).forM fun c => p.load (o + c.1) c.2

/-- `y * stride` -/
def row (y : Int) : Option Int := mul y p.stride

/-- Row `i` of the block at `o`. -/
def blockRow (lanes block : Nat) (o : Int) (i : Nat) : Option Unit := do
  let offset ← p.row i
  p.loads lanes block (o + offset)

def block (lanes block : Nat) (o : Int) : Option Unit :=
  (List.range block).forM (p.blockRow lanes block o)

/-- The ends of the window around (`cx`, `cy`). -/
def window (block : Nat) (cx cy range : Int) : Option Window := do
  let top ← sub cy range
  let bottom ← add cy range
  let left ← sub cx range
  let right ← add cx range
  some ⟨max top 0, min bottom (p.height - block), max left 0, min right (p.width - block)⟩

/-! ## The general search -/

/-- The lanes of `SsdBlock`; the 4- and 8-blocks have leaves without partial vectors. -/
def ssdLanes (target : Target) (block : Nat) : Nat :=
  if block = 8 ∨ block = 4 then min target.lanes.toNat block else target.lanes.toNat

def ssdBlock (target : Target) (block : Nat) (a b : Int) : Option Unit :=
  (List.range block).forM fun i => do
    p.blockRow (ssdLanes target block) block a i
    p.blockRow (ssdLanes target block) block b i

/-- The distance of the block at (`x`, `y`) to that at (`cx`, `cy`). -/
def distance (target : Target) (block : Nat) (cx cy x y : Int) : Option Unit := do
  let a ← p.row cy
  let b ← p.row y
  p.ssdBlock target block (a + cx) (b + x)

/-- `collect_spatial`, with `collect_spatial_coords` -/
def collectSpatial (target : Target) (bx by_ : Int) (block : Nat) (bmRange group : Int) : Option Unit :=
  if p.stride < p.width ∨ p.width < 1 ∨ p.height < 1 ∨ block < 1 ∨ p.width < block ∨ p.height < block ∨
      group < 1 then some ()
  else do
    let cx := clampPlace bx p.width block
    let cy := clampPlace by_ p.height block
    let w ← p.window block cx cy (max bmRange 0)
    if min group kBmMaxGroup = 1 then some ()
    else w.rows.forM fun y => w.columns.forM fun x =>
      if x = cx ∧ y = cy then some () else p.distance target block cx cy x y

/-! ## Rows of candidates -/

variable (finite : Int → Int → Bool)

/-- `consider` gives up on a distance that is not finite. -/
def stops (cx cy x y : Int) : Bool := decide (¬(x = cx ∧ y = cy)) && !finite x y

/-- Two candidates of row `y`. -/
def pairRound (block : Nat) (w : Window) (cx cy y row : Int) (k : Nat) : Option Bool := do
  let x := w.left + 2 * k
  p.block block block (row + x)
  p.block block block (row + (x + 1))
  some (stops finite cx cy x y || stops finite cx cy (x + 1) y)

/-- A row of candidates two by two, of the 4-blocks and of the 8-blocks. -/
def pairRow (block : Nat) (w : Window) (cx cy y : Int) : Option Bool := do
  let row ← p.row y
  let stop ← search (p.pairRound finite block w cx cy y row) (List.range (w.count / 2))
  if stop ∨ w.count % 2 = 0 then some stop
  else do
    p.block block block (row + w.right)
    some (stops finite cx cy w.right y)

/-- `SsdRow4Candidates16` and `SsdRow4Candidates8`: a candidate in each lane. -/
def ssdRow4Candidates (lanes : Nat) (self candidates : Int) (count : Nat) : Option Unit :=
  (chunks lanes count).forM fun c => do
    (List.range 4).forM fun (row : Nat) => do
      let offset ← p.row row
      (List.range 4).forM fun (k : Nat) => do
        p.load (self + offset + k) 1
        p.load (candidates + offset + c.1 + k) c.2
    store c.1 c.2

/-- Candidates two by two, with what is loaded of the reference for each two. -/
def ssdPairs (lanes block : Nat) (reference : Option Unit) (candidates : Int) (count : Nat) :
    Option Unit := do
  (List.range (count / 2)).forM fun (k : Nat) => do
    reference
    p.block lanes block (candidates + 2 * k)
    p.block lanes block (candidates + 2 * k + 1)
    store (2 * k) 1
    store (2 * k + 1) 1
  if count % 2 = 0 then some ()
  else do
    reference
    p.block lanes block (candidates + (count - 1 : Nat))
    store (count - 1) 1

/-- `SsdRow12` and `SsdRow16`; a row of a block is one vector, the reference's stay loaded. -/
def ssdRow (block : Nat) (self candidates : Int) (count : Nat) : Option Unit := do
  p.block 16 block self
  p.ssdPairs 16 block (some ()) candidates count

/-- `SsdRow12Avx2` and `SsdRow16Avx2` -/
def ssdRowAvx2 (block : Nat) (self candidates : Int) (count : Nat) : Option Unit :=
  p.ssdPairs 8 block (p.block 8 block self) candidates count

/-- A row whose distances go through the buffer. -/
def bufferedRow (fill : Int → Nat → Option Unit) (w : Window) (cx cy y : Int) : Option Bool := do
  let row ← p.row y
  fill (row + w.left) w.count
  some (w.columns.any fun x => stops finite cx cy x y)

/-! ## The fast paths -/

variable (b : Build)

/-- The rows of a window, and the general search where a row gave up. -/
def scan (block : Nat) (w : Window) (cx cy bmRange group : Int) (row : Int → Option Bool) : Option Unit := do
  let nonfinite ← search row w.rows
  if nonfinite then p.collectSpatial b.target cx cy block bmRange group else some ()

/-- A row of the 4-blocks. -/
def row4 (avx2Enabled : Bool) (self : Int) (w : Window) (cx cy : Int) : Int → Option Bool :=
  if b.target = .avx3 then p.bufferedRow finite (p.ssdRow4Candidates 16 self) w cx cy
  else if b.target = .avx2 ∧ b.experiment.testBit 1 ∧ avx2Enabled then
    p.bufferedRow finite (p.ssdRow4Candidates 8 self) w cx cy
  else p.pairRow finite 4 w cx cy

/-- The reference stays loaded, except where the rows load it again. -/
def reference4 (self : Int) : Option Unit := if b.target = .avx3 then some () else p.block 4 4 self

def spatialMatch4Fast (cx cy bmRange group : Int) (avx2Enabled : Bool) : Option Unit :=
  if b.target = .scalar then p.collectSpatial b.target cx cy 4 bmRange group
  else do
    let w ← p.window 4 cx cy bmRange
    let offset ← p.row cy
    if min group kBmMaxGroup ≤ 1 then some ()
    else do
      p.reference4 b (offset + cx)
      p.scan b 4 w cx cy bmRange group (p.row4 finite b avx2Enabled (offset + cx) w cx cy)

/-- `SpatialMatch12Fast` and `SpatialMatch16Fast`; `bit`: that of the path in the experiment. -/
def spatialMatchRows (block bit : Nat) (cx cy bmRange group : Int) (avx2Enabled : Bool) : Option Unit :=
  if b.target = .avx2 ∧ !avx2Enabled then p.collectSpatial b.target cx cy block bmRange group
  else if b.target = .avx3 ∨ b.experiment.testBit bit ∧ b.target = .avx2 then do
    let w ← p.window block cx cy bmRange
    let offset ← p.row cy
    if min group kBmMaxGroup ≤ 1 then some ()
    else p.scan b block w cx cy bmRange group (p.bufferedRow finite
      (if b.target = .avx2 then p.ssdRowAvx2 block (offset + cx) else p.ssdRow block (offset + cx))
      w cx cy)
  else p.collectSpatial b.target cx cy block bmRange group

def spatialMatch12Fast : Int → Int → Int → Int → Bool → Option Unit := p.spatialMatchRows finite b 12 2

def spatialMatch16Fast : Int → Int → Int → Int → Bool → Option Unit := p.spatialMatchRows finite b 16 3

/-- `SpatialMatch8`. `retry`: whether what the lanes hold in the end sends it to the general
search. -/
def spatialMatch8 (retry : Bool) (cx cy bmRange : Int) : Option Unit := do
  let w ← p.window 8 cx cy bmRange
  let offset ← p.row cy
  p.block 8 8 (offset + cx)
  let _ ← search (p.pairRow (fun _ _ => true) 8 w cx cy) w.rows
  if retry then p.collectSpatial b.target cx cy 8 bmRange 8 else some ()

def spatialMatch8Ssd (cx cy bmRange group : Int) : Option Unit := do
  let w ← p.window 8 cx cy bmRange
  let offset ← p.row cy
  if min group kBmMaxGroup ≤ 1 then some ()
  else do
    p.block 8 8 (offset + cx)
    p.scan b 8 w cx cy bmRange group (p.pairRow finite 8 w cx cy)

end Plane

/-- The arguments of `spatial_match`; `avx2Features` with those that the build asks for. -/
structure Call where
  plane : Plane
  bx : Int
  by_ : Int
  block : Int
  bmRange : Int
  group : Int
  avx2Features : Nat

namespace Call

variable (c : Call)

/-- The checks of `SpatialMatch`, as far as they are about numbers. -/
def rejected : Bool :=
  c.plane.width < 1 ∨ c.plane.height < 1 ∨ c.block < 1 ∨ c.plane.stride < c.plane.width ∨
    c.plane.width - c.block < 0 ∨ c.plane.height - c.block < 0 ∨ c.group < 1

def cx : Int := clampPlace c.bx c.plane.width c.block

def cy : Int := clampPlace c.by_ c.plane.height c.block

def spatialMatch (b : Build) (finite : Int → Int → Bool) (retry : Bool) : Option Unit :=
  let p := c.plane
  let range := max c.bmRange 0
  if c.rejected then some ()
  else if c.block = 8 ∧ (b.target = .avx3 ∨ b.target = .avx2) then
    if c.group = 8 then p.spatialMatch8 b retry c.cx c.cy range
    else p.spatialMatch8Ssd finite b c.cx c.cy range c.group
  else if c.block = 4 ∧ b.target ≠ .scalar then
    p.spatialMatch4Fast finite b c.cx c.cy range c.group (c.avx2Features.testBit 1)
  else if c.block = 12 ∧ b.b12Fast then
    p.spatialMatch12Fast finite b c.cx c.cy range c.group (c.avx2Features.testBit 2)
  else if c.block = 16 then
    p.spatialMatch16Fast finite b c.cx c.cy range c.group (c.avx2Features.testBit 3)
  else p.collectSpatial b.target c.cx c.cy c.block.toNat c.bmRange c.group

end Call

/-! ## Accesses inside of the image -/

theorem chunks_le {lanes n : Nat} (hlanes : 0 < lanes) {c : Nat × Nat} (h : c ∈ chunks lanes n) :
    0 < c.2 ∧ c.1 + c.2 ≤ n := by
  have hdiv : n / lanes * lanes + n % lanes = n := Nat.div_add_mod' n lanes
  rcases List.mem_append.mp h with h | h
  · obtain ⟨k, hk, rfl⟩ := List.mem_map.mp h
    have hk : k < n / lanes := List.mem_range.mp hk
    have hle : (k + 1) * lanes ≤ n / lanes * lanes := Nat.mul_le_mul_right lanes hk
    have hsucc : (k + 1) * lanes = k * lanes + lanes := Nat.succ_mul k lanes
    dsimp only
    omega
  · split at h
    · simp at h
    · obtain rfl := List.mem_singleton.mp h
      dsimp only
      omega

/-- The last vector ends with the last element. -/
theorem chunks_last {lanes n : Nat} (hlanes : 0 < lanes) (hn : 0 < n) :
    ∃ c ∈ chunks lanes n, c.1 + c.2 = n := by
  have hdiv : n / lanes * lanes + n % lanes = n := Nat.div_add_mod' n lanes
  by_cases hrest : n % lanes = 0
  · have hpos : 0 < n / lanes := by
      cases hd : n / lanes with
      | zero => rw [hd, hrest] at hdiv; omega
      | succ k => omega
    have hsucc : (n / lanes - 1 + 1) * lanes = (n / lanes - 1) * lanes + lanes := Nat.succ_mul _ lanes
    rw [Nat.sub_add_cancel hpos] at hsucc
    refine ⟨((n / lanes - 1) * lanes, lanes), List.mem_append_left _ ?_, by dsimp only; omega⟩
    exact List.mem_map.mpr ⟨n / lanes - 1, List.mem_range.mpr (by omega), rfl⟩
  · refine ⟨(n / lanes * lanes, n % lanes), List.mem_append_right _ ?_, hdiv⟩
    rw [if_neg hrest]
    exact List.mem_singleton.mpr rfl

theorem store_eq_some {x n : Nat} : store x n = some () ↔ x + n ≤ 2 * kBmMaxRange + 1 := by
  simp [store]

namespace Plane

/-- The image of an accepted call. -/
structure Valid (p : Plane) : Prop where
  width_pos : 1 ≤ p.width
  height_pos : 1 ≤ p.height
  width_le : p.width ≤ p.stride
  stride_fits : p.stride ≤ intMax
  height_fits : p.height ≤ intMax

/-- The offset of a row is an `int`. -/
def RowFits (p : Plane) (y : Int) : Prop := y * p.stride ≤ intMax

instance (p : Plane) (y : Int) : Decidable (p.RowFits y) := inferInstanceAs (Decidable (_ ≤ _))

variable {p : Plane} {x y o : Int} {lanes n block i : Nat}

section

variable (hp : p.Valid)

include hp

theorem row_eq_some (hy : 0 ≤ y) : p.row y = some o ↔ p.RowFits y ∧ o = y * p.stride := by
  have hstride : 0 ≤ p.stride := by have := hp.width_pos; have := hp.width_le; omega
  have hpos : 0 ≤ y * p.stride := Int.mul_nonneg hy hstride
  simp only [row, mul, ofInt_eq_some, Fits, RowFits]
  constructor
  · rintro ⟨⟨-, h⟩, rfl⟩
    exact ⟨h, rfl⟩
  · rintro ⟨h, rfl⟩
    exact ⟨⟨by omega, h⟩, rfl⟩

theorem RowFits.mono {y' : Int} (h : p.RowFits y') (hle : y ≤ y') : p.RowFits y := by
  have hstride : 0 ≤ p.stride := by have := hp.width_pos; have := hp.width_le; omega
  exact le_trans (Int.mul_le_mul_of_nonneg_right hle hstride) h

theorem load_inside (hx : 0 ≤ x) (hxn : x + n ≤ p.width) (hn : 0 < n) (hy : 0 ≤ y) (hyh : y < p.height) :
    p.load (y * p.stride + x) n = some () := by
  have hstride : 0 < p.stride := by have := hp.width_pos; have := hp.width_le; omega
  have hlt : x < p.stride := by have := hp.width_le; omega
  have hdiv : (y * p.stride + x) / p.stride = y := by
    rw [Int.add_comm, Int.add_mul_ediv_right _ _ (by omega), Int.ediv_eq_zero_of_lt hx hlt, Int.zero_add]
  have hmod : (y * p.stride + x) % p.stride = x := by
    rw [Int.add_comm, Int.add_mul_emod_self_right, Int.emod_eq_of_lt hx hlt]
  have hpos : 0 ≤ y * p.stride := Int.mul_nonneg hy (by omega)
  rw [load, hdiv, hmod, if_pos ⟨by omega, hyh, hxn⟩]

theorem loads_inside (hlanes : 0 < lanes) (hx : 0 ≤ x) (hxn : x + n ≤ p.width) (hy : 0 ≤ y) (hyh : y < p.height) :
    p.loads lanes n (y * p.stride + x) = some () := by
  refine forM_eq_some.mpr fun c hc => ?_
  obtain ⟨hpos, hle⟩ := chunks_le hlanes hc
  rw [Int.add_assoc]
  exact load_inside hp (by omega) (by omega) hpos hy hyh

end

/-- The block at (`x`, `y`) is in the image. -/
structure Inside (p : Plane) (block : Nat) (x y : Int) : Prop where
  left : 0 ≤ x
  right : x + block ≤ p.width
  top : 0 ≤ y
  bottom : y + block ≤ p.height

section

variable (hp : p.Valid)

include hp

theorem blockRow_eq_some (hlanes : 0 < lanes) (h : p.Inside block x y) (hi : i < block) :
    p.blockRow lanes block (y * p.stride + x) i = some () ↔ p.RowFits i := by
  have hrow : y * p.stride + x + i * p.stride = (y + i) * p.stride + x := by ring
  have htop := h.top
  have hbottom := h.bottom
  have hloads : p.loads lanes block (y * p.stride + x + i * p.stride) = some () := by
    rw [hrow]
    exact loads_inside hp hlanes h.left h.right (by omega) (by omega)
  constructor
  · intro hrun
    obtain ⟨offset, hoffset, -⟩ := bind_eq_some.mp hrun
    exact ((row_eq_some hp (by omega)).mp hoffset).1
  · intro hfits
    have hoffset : p.row i = some (i * p.stride) := (row_eq_some hp (by omega)).mpr ⟨hfits, rfl⟩
    exact bind_eq_some.mpr ⟨_, hoffset, hloads⟩

/-- The rows of a block can be loaded where the last one can. -/
theorem block_eq_some (hlanes : 0 < lanes) (h : p.Inside block x y) (hblock : 0 < block) :
    p.block lanes block (y * p.stride + x) = some () ↔ p.RowFits (block - 1 : Nat) := by
  constructor
  · intro hrun
    have hlast := forM_eq_some.mp hrun (block - 1) (List.mem_range.mpr (by omega))
    exact (blockRow_eq_some hp hlanes h (by omega)).mp hlast
  · intro hfits
    refine forM_eq_some.mpr fun i hi => ?_
    have hi : i < block := List.mem_range.mp hi
    exact (blockRow_eq_some hp hlanes h hi).mpr (RowFits.mono hp hfits (by omega))

theorem ssdBlock_eq_some {target : Target} {x' y' : Int} (h : p.Inside block x y) (h' : p.Inside block x' y')
    (hblock : 0 < block) :
    p.ssdBlock target block (y * p.stride + x) (y' * p.stride + x') = some () ↔
      p.RowFits (block - 1 : Nat) := by
  have hlanes : 0 < ssdLanes target block := by
    have htarget := target.lanes_pos
    unfold ssdLanes
    split <;> omega
  constructor
  · intro hrun
    have hlast := forM_eq_some.mp hrun (block - 1) (List.mem_range.mpr (by omega))
    obtain ⟨⟨⟩, ha, -⟩ := bind_eq_some.mp hlast
    exact (blockRow_eq_some hp hlanes h (by omega)).mp ha
  · intro hfits
    refine forM_eq_some.mpr fun i hi => ?_
    have hi : i < block := List.mem_range.mp hi
    have hrow : p.RowFits i := RowFits.mono hp hfits (by omega)
    exact bind_eq_some.mpr ⟨(), (blockRow_eq_some hp hlanes h hi).mpr hrow,
      (blockRow_eq_some hp hlanes h' hi).mpr hrow⟩

theorem distance_eq_some {target : Target} {cx cy : Int} (h : p.Inside block cx cy) (h' : p.Inside block x y)
    (hblock : 0 < block) : p.distance target block cx cy x y = some () ↔
      p.RowFits cy ∧ p.RowFits y ∧ p.RowFits (block - 1 : Nat) := by
  constructor
  · intro hrun
    obtain ⟨a, ha, hrun⟩ := bind_eq_some.mp hrun
    obtain ⟨b, hb, hrun⟩ := bind_eq_some.mp hrun
    obtain ⟨hcy, rfl⟩ := (row_eq_some hp h.top).mp ha
    obtain ⟨hy, rfl⟩ := (row_eq_some hp h'.top).mp hb
    exact ⟨hcy, hy, (ssdBlock_eq_some hp h h' hblock).mp hrun⟩
  · rintro ⟨hcy, hy, hfits⟩
    exact bind_eq_some.mpr ⟨_, (row_eq_some hp h.top).mpr ⟨hcy, rfl⟩, bind_eq_some.mpr ⟨_,
      (row_eq_some hp h'.top).mpr ⟨hy, rfl⟩, (ssdBlock_eq_some hp h h' hblock).mpr hfits⟩⟩

end

/-! ## The window and the general search -/

/-- The window around (`cx`, `cy`), where its ends are `int`s. -/
def around (p : Plane) (block : Nat) (cx cy range : Int) : Window :=
  ⟨max (cy - range) 0, min (cy + range) (p.height - block), max (cx - range) 0, min (cx + range) (p.width - block)⟩

/-- Center plus range. -/
def WindowFits (cx cy range : Int) : Prop := cx + range ≤ intMax ∧ cy + range ≤ intMax

instance (cx cy range : Int) : Decidable (WindowFits cx cy range) := inferInstanceAs (Decidable (_ ∧ _))

/-- Only the reference is in the window. -/
def Alone (w : Window) : Prop := w.top = w.bottom ∧ w.left = w.right

instance (w : Window) : Decidable (Alone w) := inferInstanceAs (Decidable (_ ∧ _))

/-- The offsets of the rows that a search compares. -/
def OffsetsFit (p : Plane) (block : Nat) (w : Window) : Prop := p.RowFits w.bottom ∧ p.RowFits (block - 1 : Nat)

instance (p : Plane) (block : Nat) (w : Window) : Decidable (p.OffsetsFit block w) :=
  inferInstanceAs (Decidable (_ ∧ _))

/-- What the kernels are called with. -/
structure Placed (p : Plane) (block : Nat) (cx cy range : Int) : Prop where
  valid : p.Valid
  inside : p.Inside block cx cy
  block_pos : 0 < block
  range_nonneg : 0 ≤ range
  range_fits : range ≤ intMax

namespace Placed

variable {cx cy range group : Int} {w : Window} (h : p.Placed block cx cy range)

include h

theorem window_eq_some : p.window block cx cy range = some w ↔
    WindowFits cx cy range ∧ w = p.around block cx cy range := by
  obtain ⟨hvalid, hinside, -, hnonneg, hfits⟩ := h
  have hcx := hinside.left
  have hcy := hinside.top
  have hright := hinside.right
  have hbottom := hinside.bottom
  have hwidth := hvalid.width_le
  have hstride := hvalid.stride_fits
  have hheight := hvalid.height_fits
  have hmax : intMax = 2147483647 := rfl
  have htop : sub cy range = some (cy - range) := sub_of_fits ⟨by omega, by omega⟩
  have hleft : sub cx range = some (cx - range) := sub_of_fits ⟨by omega, by omega⟩
  constructor
  · intro hrun
    obtain ⟨t, ht, hrun⟩ := bind_eq_some.mp hrun
    obtain ⟨b, hb, hrun⟩ := bind_eq_some.mp hrun
    obtain ⟨l, hl, hrun⟩ := bind_eq_some.mp hrun
    obtain ⟨r, hr, hrun⟩ := bind_eq_some.mp hrun
    obtain rfl := Option.some.inj (htop.symm.trans ht)
    obtain rfl := Option.some.inj (hleft.symm.trans hl)
    obtain ⟨⟨-, hb'⟩, rfl⟩ := ofInt_eq_some.mp hb
    obtain ⟨⟨-, hr'⟩, rfl⟩ := ofInt_eq_some.mp hr
    exact ⟨⟨hr', hb'⟩, (Option.some.inj hrun).symm⟩
  · rintro ⟨⟨hr, hb⟩, rfl⟩
    have hb' : add cy range = some (cy + range) := add_of_fits ⟨by omega, hb⟩
    have hr' : add cx range = some (cx + range) := add_of_fits ⟨by omega, hr⟩
    unfold window
    rw [htop, hb', hleft, hr']
    rfl

theorem around_bounds : (0 ≤ (p.around block cx cy range).top ∧ (p.around block cx cy range).top ≤ cy) ∧
    (cy ≤ (p.around block cx cy range).bottom ∧ (p.around block cx cy range).bottom ≤ p.height - block) ∧
    (0 ≤ (p.around block cx cy range).left ∧ (p.around block cx cy range).left ≤ cx) ∧
    cx ≤ (p.around block cx cy range).right ∧ (p.around block cx cy range).right ≤ p.width - block := by
  obtain ⟨-, hinside, -, hnonneg, -⟩ := h
  have hcx := hinside.left
  have hcy := hinside.top
  have hright := hinside.right
  have hbottom := hinside.bottom
  unfold around
  dsimp only
  omega

/-- Every block of the window is in the image. -/
theorem around_inside {x y : Int} (hy : y ∈ (p.around block cx cy range).rows)
    (hx : x ∈ (p.around block cx cy range).columns) : p.Inside block x y := by
  obtain ⟨htop, hbottom, hleft, hright⟩ := h.around_bounds
  have hy := Int.mem_range_iff.mp hy
  have hx := Int.mem_range_iff.mp hx
  exact ⟨by omega, by omega, by omega, by omega⟩

theorem center_mem : cy ∈ (p.around block cx cy range).rows ∧ cx ∈ (p.around block cx cy range).columns := by
  obtain ⟨htop, hbottom, hleft, hright⟩ := h.around_bounds
  exact ⟨Int.mem_range_iff.mpr (by omega), Int.mem_range_iff.mpr (by omega)⟩

theorem bottom_mem : (p.around block cx cy range).bottom ∈ (p.around block cx cy range).rows := by
  obtain ⟨htop, hbottom, -⟩ := h.around_bounds
  exact Int.mem_range_iff.mpr (by omega)

/-- A place of the window besides the reference. -/
theorem not_alone {x y : Int} (hy : y ∈ (p.around block cx cy range).rows)
    (hx : x ∈ (p.around block cx cy range).columns) (hne : ¬(x = cx ∧ y = cy)) :
    ¬Alone (p.around block cx cy range) := by
  rintro ⟨hrow, hcolumn⟩
  obtain ⟨htop, hbottom, hleft, hright⟩ := h.around_bounds
  have hy := Int.mem_range_iff.mp hy
  have hx := Int.mem_range_iff.mp hx
  exact hne ⟨by omega, by omega⟩

/-- Where there is another place, there is one in the last row, or the reference is in it. -/
theorem bottom_cases (hmore : ¬Alone (p.around block cx cy range)) :
    ∃ y ∈ (p.around block cx cy range).rows, ∃ x ∈ (p.around block cx cy range).columns,
      ¬(x = cx ∧ y = cy) ∧ ((p.around block cx cy range).bottom = y ∨ (p.around block cx cy range).bottom = cy) := by
  obtain ⟨htop, hbottom, hleft, hright⟩ := h.around_bounds
  by_cases hlast : (p.around block cx cy range).bottom = cy
  · by_cases hfirst : (p.around block cx cy range).top = cy
    · have hcolumns : ¬(p.around block cx cy range).left = (p.around block cx cy range).right :=
        fun heq => hmore ⟨by omega, heq⟩
      by_cases hx : (p.around block cx cy range).left = cx
      · exact ⟨cy, h.center_mem.1, (p.around block cx cy range).right, Int.mem_range_iff.mpr (by omega),
          by omega, .inr hlast⟩
      · exact ⟨cy, h.center_mem.1, (p.around block cx cy range).left, Int.mem_range_iff.mpr (by omega),
          by omega, .inr hlast⟩
    · exact ⟨_, Int.mem_range_iff.mpr ⟨Int.le_refl _, by omega⟩, cx, h.center_mem.2, by omega, .inr hlast⟩
  · exact ⟨_, h.bottom_mem, cx, h.center_mem.2, by omega, .inl rfl⟩

theorem clampPlace_eq : clampPlace cx p.width block = cx ∧ clampPlace cy p.height block = cy := by
  have hcx := h.inside.left
  have hcy := h.inside.top
  have hright := h.inside.right
  have hbottom := h.inside.bottom
  unfold clampPlace
  omega

theorem collectSpatial_eq_some {target : Target} (hgroup : 1 ≤ group) :
    p.collectSpatial target cx cy block range group = some () ↔ WindowFits cx cy range ∧
      (1 < group → ¬Alone (p.around block cx cy range) → p.OffsetsFit block (p.around block cx cy range)) := by
  have hwidth := h.valid.width_pos
  have hheight := h.valid.height_pos
  have hpitch := h.valid.width_le
  have hright := h.inside.right
  have hbottom := h.inside.bottom
  have hcx := h.inside.left
  have hcy := h.inside.top
  have hpos := h.block_pos
  have hone : min group kBmMaxGroup = 1 ↔ ¬1 < group := by unfold kBmMaxGroup; omega
  rw [collectSpatial, if_neg (by omega), h.clampPlace_eq.1, h.clampPlace_eq.2, max_eq_left h.range_nonneg]
  constructor
  · intro hrun
    obtain ⟨w, hw, hrun⟩ := bind_eq_some.mp hrun
    obtain ⟨hfits, rfl⟩ := h.window_eq_some.mp hw
    refine ⟨hfits, fun hmany hmore => ?_⟩
    rw [if_neg (fun heq => hone.mp heq hmany)] at hrun
    obtain ⟨y, hy, x, hx, hne, hlast⟩ := h.bottom_cases hmore
    have hplace := forM_eq_some.mp (forM_eq_some.mp hrun y hy) x hx
    rw [if_neg hne] at hplace
    obtain ⟨hrow, hrow', hblock⟩ := (distance_eq_some h.valid h.inside (h.around_inside hy hx) hpos).mp hplace
    refine ⟨?_, hblock⟩
    rcases hlast with heq | heq
    · rwa [heq]
    · rwa [heq]
  · rintro ⟨hfits, hoffsets⟩
    refine bind_eq_some.mpr ⟨_, h.window_eq_some.mpr ⟨hfits, rfl⟩, ?_⟩
    by_cases hmany : 1 < group
    · rw [if_neg (fun heq => hone.mp heq hmany)]
      refine forM_eq_some.mpr fun y hy => forM_eq_some.mpr fun x hx => ?_
      by_cases hself : x = cx ∧ y = cy
      · rw [if_pos hself]
      · rw [if_neg hself]
        obtain ⟨hrow, hblock⟩ := hoffsets hmany (h.not_alone hy hx hself)
        obtain ⟨-, hbounds, -⟩ := h.around_bounds
        have hyrange := Int.mem_range_iff.mp hy
        exact (distance_eq_some h.valid h.inside (h.around_inside hy hx) hpos).mpr
          ⟨RowFits.mono h.valid hrow hbounds.1, RowFits.mono h.valid hrow (by omega), hblock⟩
    · rw [if_pos (hone.mpr hmany)]

/-! ## The rows of the fast paths -/

section Rows

variable {y : Int} {finite : Int → Int → Bool} {stop : Bool}

theorem count_pos : 0 < (p.around block cx cy range).count := by
  obtain ⟨-, -, hleft, hright⟩ := h.around_bounds
  unfold Window.count
  omega

/-- A column of the window, counted from its left end. -/
theorem column_mem {k : Nat} (hk : k < (p.around block cx cy range).count) :
    (p.around block cx cy range).left + k ∈ (p.around block cx cy range).columns := by
  unfold Window.count at hk
  exact Int.mem_range_iff.mpr (by omega)

theorem right_eq : (p.around block cx cy range).right =
    (p.around block cx cy range).left + ((p.around block cx cy range).count - 1 : Nat) := by
  have hcount := h.count_pos
  unfold Window.count at hcount ⊢
  omega

/-- The candidate `k` of row `y`. -/
theorem candidate_eq_some (hlanes : 0 < lanes) (hy : y ∈ (p.around block cx cy range).rows) {k : Nat}
    (hk : k < (p.around block cx cy range).count) :
    p.block lanes block (y * p.stride + ((p.around block cx cy range).left + k)) = some () ↔
      p.RowFits (block - 1 : Nat) :=
  block_eq_some h.valid hlanes (h.around_inside hy (h.column_mem hk)) h.block_pos

theorem self_eq_some (hlanes : 0 < lanes) :
    p.block lanes block (cy * p.stride + cx) = some () ↔ p.RowFits (block - 1 : Nat) :=
  block_eq_some h.valid hlanes h.inside h.block_pos

/-- A row that gives up has a candidate besides the reference. -/
theorem stops_not_alone {x : Int} (hy : y ∈ (p.around block cx cy range).rows)
    (hx : x ∈ (p.around block cx cy range).columns) (hstop : stops finite cx cy x y = true) :
    ¬Alone (p.around block cx cy range) := by
  have hne : ¬(x = cx ∧ y = cy) := by
    simp only [stops, Bool.and_eq_true, decide_eq_true_eq] at hstop
    exact hstop.1
  exact h.not_alone hy hx hne

/-- What a scan needs of its rows: when a row can be taken, and that none gives up on the
reference. -/
structure RowSpec (p : Plane) (block : Nat) (cx cy range : Int) (needs : Prop) (row : Int → Option Bool) : Prop where
  runs : ∀ y ∈ (p.around block cx cy range).rows, (row y).isSome ↔ p.RowFits y ∧ needs
  stops : ∀ y ∈ (p.around block cx cy range).rows, row y = some true → ¬Alone (p.around block cx cy range)

theorem pairRound_isSome (hy : y ∈ (p.around block cx cy range).rows) {k : Nat}
    (hk : k < (p.around block cx cy range).count / 2) :
    (p.pairRound finite block (p.around block cx cy range) cx cy y (y * p.stride) k).isSome ↔
      p.RowFits (block - 1 : Nat) := by
  have heven := h.candidate_eq_some h.block_pos hy (k := 2 * k) (by omega)
  have hodd := h.candidate_eq_some h.block_pos hy (k := 2 * k + 1) (by omega)
  push_cast at heven hodd
  rw [← Int.add_assoc _ (2 * (k : Int)) 1] at hodd
  constructor
  · intro hrun
    obtain ⟨stop, hrun⟩ := Option.isSome_iff_exists.mp hrun
    obtain ⟨⟨⟩, hblock, -⟩ := bind_eq_some.mp hrun
    exact heven.mp hblock
  · intro hfits
    unfold pairRound
    dsimp only
    rw [heven.mpr hfits, hodd.mpr hfits]
    rfl

theorem pairRound_stops (hy : y ∈ (p.around block cx cy range).rows) {row : Int} {k : Nat}
    (hk : k < (p.around block cx cy range).count / 2)
    (hstop : p.pairRound finite block (p.around block cx cy range) cx cy y row k = some true) :
    ¬Alone (p.around block cx cy range) := by
  have heven := h.column_mem (k := 2 * k) (by omega)
  have hodd := h.column_mem (k := 2 * k + 1) (by omega)
  push_cast at heven hodd
  rw [← Int.add_assoc _ (2 * (k : Int)) 1] at hodd
  obtain ⟨⟨⟩, -, hstop⟩ := bind_eq_some.mp hstop
  obtain ⟨⟨⟩, -, hstop⟩ := bind_eq_some.mp hstop
  rcases Bool.or_eq_true_iff.mp (Option.some.inj hstop) with hstop | hstop
  · exact h.stops_not_alone hy heven hstop
  · exact h.stops_not_alone hy hodd hstop

theorem pairRow_spec : RowSpec p block cx cy range (p.RowFits (block - 1 : Nat))
    (p.pairRow finite block (p.around block cx cy range) cx cy) := by
  have hcount := h.count_pos
  have hright := h.right_eq
  have hlast : ∀ y ∈ (p.around block cx cy range).rows,
      p.block block block (y * p.stride + (p.around block cx cy range).right) = some () ↔
        p.RowFits (block - 1 : Nat) := by
    intro y hy
    rw [hright]
    exact h.candidate_eq_some h.block_pos hy (by omega)
  obtain ⟨htop, -⟩ := h.around_bounds
  constructor
  · intro y hy
    have hy0 : 0 ≤ y := by have := Int.mem_range_iff.mp hy; omega
    constructor
    · intro hrun
      obtain ⟨stop, hrun⟩ := Option.isSome_iff_exists.mp hrun
      obtain ⟨o, ho, hrun⟩ := bind_eq_some.mp hrun
      obtain ⟨hrow, rfl⟩ := (row_eq_some h.valid hy0).mp ho
      refine ⟨hrow, ?_⟩
      obtain ⟨stop, hpairs, hrun⟩ := bind_eq_some.mp hrun
      cases hn : (p.around block cx cy range).count / 2 with
      | zero =>
        -- the row has one candidate
        rw [hn] at hpairs
        obtain rfl := Option.some.inj hpairs
        rw [if_neg (by simp; omega)] at hrun
        obtain ⟨⟨⟩, hblock, -⟩ := bind_eq_some.mp hrun
        exact (hlast y hy).mp hblock
      | succ n =>
        rw [hn, List.range_succ_eq_map] at hpairs
        exact (h.pairRound_isSome hy (by omega)).mp (search_head hpairs)
    · rintro ⟨hrow, hfits⟩
      have ho : p.row y = some (y * p.stride) := (row_eq_some h.valid hy0).mpr ⟨hrow, rfl⟩
      have hpairs : (search (p.pairRound finite block (p.around block cx cy range) cx cy y (y * p.stride))
          (List.range ((p.around block cx cy range).count / 2))).isSome :=
        search_isSome fun k hk => (h.pairRound_isSome hy (List.mem_range.mp hk)).mpr hfits
      obtain ⟨stop, hpairs⟩ := Option.isSome_iff_exists.mp hpairs
      unfold pairRow
      rw [ho, Option.bind_eq_bind, Option.bind_some, hpairs, Option.bind_eq_bind, Option.bind_some]
      split
      · rfl
      · rw [(hlast y hy).mpr hfits]
        rfl
  · intro y hy hrun
    obtain ⟨o, -, hrun⟩ := bind_eq_some.mp hrun
    obtain ⟨stop, hpairs, hrun⟩ := bind_eq_some.mp hrun
    split at hrun
    · obtain rfl := Option.some.inj hrun
      obtain ⟨k, hk, hstop⟩ := search_true hpairs
      exact h.pairRound_stops hy (List.mem_range.mp hk) hstop
    · obtain ⟨⟨⟩, -, hrun⟩ := bind_eq_some.mp hrun
      rw [hright] at hrun
      exact h.stops_not_alone hy (h.column_mem (by omega)) (Option.some.inj hrun)

/-- The distances of a row fit the buffer. -/
def BufferFits (w : Window) : Prop := w.right - w.left + 1 ≤ 2 * kBmMaxRange + 1

theorem bufferFits_iff : BufferFits (p.around block cx cy range) ↔
    (p.around block cx cy range).count ≤ 2 * kBmMaxRange + 1 := by
  have hcount := h.count_pos
  unfold BufferFits
  unfold Window.count at hcount ⊢
  omega

theorem bufferedRow_spec {fill : Int → Nat → Option Unit}
    (hfill : ∀ y ∈ (p.around block cx cy range).rows,
      fill (y * p.stride + (p.around block cx cy range).left) (p.around block cx cy range).count = some () ↔
        p.RowFits (block - 1 : Nat) ∧ BufferFits (p.around block cx cy range)) :
    RowSpec p block cx cy range (p.RowFits (block - 1 : Nat) ∧ BufferFits (p.around block cx cy range))
      (p.bufferedRow finite fill (p.around block cx cy range) cx cy) := by
  obtain ⟨htop, -⟩ := h.around_bounds
  constructor
  · intro y hy
    have hy0 : 0 ≤ y := by have := Int.mem_range_iff.mp hy; omega
    constructor
    · intro hrun
      obtain ⟨stop, hrun⟩ := Option.isSome_iff_exists.mp hrun
      obtain ⟨o, ho, hrun⟩ := bind_eq_some.mp hrun
      obtain ⟨hrow, rfl⟩ := (row_eq_some h.valid hy0).mp ho
      obtain ⟨⟨⟩, hrun, -⟩ := bind_eq_some.mp hrun
      exact ⟨hrow, (hfill y hy).mp hrun⟩
    · rintro ⟨hrow, hfits⟩
      have ho : p.row y = some (y * p.stride) := (row_eq_some h.valid hy0).mpr ⟨hrow, rfl⟩
      unfold bufferedRow
      rw [ho, Option.bind_eq_bind, Option.bind_some, (hfill y hy).mpr hfits]
      rfl
  · intro y hy hrun
    obtain ⟨o, -, hrun⟩ := bind_eq_some.mp hrun
    obtain ⟨⟨⟩, -, hrun⟩ := bind_eq_some.mp hrun
    obtain ⟨x, hx, hstop⟩ := List.any_eq_true.mp (Option.some.inj hrun)
    exact h.stops_not_alone hy hx hstop

/-- Each candidate is loaded and its distance stored, whatever is loaded of the reference. -/
theorem ssdPairs_eq_some {reference : Option Unit} (hlanes : 0 < lanes)
    (hreference : p.RowFits (block - 1 : Nat) → reference = some ())
    (hy : y ∈ (p.around block cx cy range).rows) :
    p.ssdPairs lanes block reference (y * p.stride + (p.around block cx cy range).left)
        (p.around block cx cy range).count = some () ↔
      p.RowFits (block - 1 : Nat) ∧ BufferFits (p.around block cx cy range) := by
  have hcount := h.count_pos
  rw [h.bufferFits_iff]
  have hcandidate : ∀ k < (p.around block cx cy range).count,
      p.block lanes block (y * p.stride + (p.around block cx cy range).left + k) = some () ↔
        p.RowFits (block - 1 : Nat) := by
    intro k hk
    rw [Int.add_assoc]
    exact h.candidate_eq_some hlanes hy hk
  generalize (p.around block cx cy range).count = n at hcount hcandidate ⊢
  generalize y * p.stride + (p.around block cx cy range).left = o at hcandidate ⊢
  constructor
  · intro hrun
    obtain ⟨⟨⟩, hpairs, hrun⟩ := bind_eq_some.mp hrun
    by_cases heven : n % 2 = 0
    · -- the last two candidates
      have hlast := forM_eq_some.mp hpairs (n / 2 - 1) (List.mem_range.mpr (by omega))
      obtain ⟨⟨⟩, -, hlast⟩ := bind_eq_some.mp hlast
      obtain ⟨⟨⟩, hblock, hlast⟩ := bind_eq_some.mp hlast
      obtain ⟨⟨⟩, -, hlast⟩ := bind_eq_some.mp hlast
      obtain ⟨⟨⟩, -, hstore⟩ := bind_eq_some.mp hlast
      have hblock := (hcandidate (2 * (n / 2 - 1)) (by omega)).mp (by push_cast; exact hblock)
      have hstore := store_eq_some.mp hstore
      exact ⟨hblock, by omega⟩
    · rw [if_neg heven] at hrun
      obtain ⟨⟨⟩, -, hrun⟩ := bind_eq_some.mp hrun
      obtain ⟨⟨⟩, hblock, hstore⟩ := bind_eq_some.mp hrun
      have hstore := store_eq_some.mp hstore
      exact ⟨(hcandidate (n - 1) (by omega)).mp hblock, by omega⟩
  · rintro ⟨hfits, hbuffer⟩
    refine bind_eq_some.mpr ⟨(), forM_eq_some.mpr fun k hk => ?_, ?_⟩
    · have hk : k < n / 2 := List.mem_range.mp hk
      have heven := (hcandidate (2 * k) (by omega)).mpr hfits
      have hodd := (hcandidate (2 * k + 1) (by omega)).mpr hfits
      push_cast at heven hodd
      rw [← Int.add_assoc] at hodd
      rw [hreference hfits, heven, hodd, store_eq_some.mpr (by omega), store_eq_some.mpr (by omega)]
      rfl
    · split
      · rfl
      · rw [hreference hfits, (hcandidate (n - 1) (by omega)).mpr hfits, store_eq_some.mpr (by omega)]
        rfl

theorem ssdRow_eq_some (hy : y ∈ (p.around block cx cy range).rows) :
    p.ssdRow block (cy * p.stride + cx) (y * p.stride + (p.around block cx cy range).left)
        (p.around block cx cy range).count = some () ↔
      p.RowFits (block - 1 : Nat) ∧ BufferFits (p.around block cx cy range) := by
  have hself : p.block 16 block (cy * p.stride + cx) = some () ↔ p.RowFits (block - 1 : Nat) :=
    h.self_eq_some (by decide)
  have hpairs : p.ssdPairs 16 block (some ()) (y * p.stride + (p.around block cx cy range).left)
      (p.around block cx cy range).count = some () ↔
        p.RowFits (block - 1 : Nat) ∧ BufferFits (p.around block cx cy range) :=
    h.ssdPairs_eq_some (by decide) (fun _ => rfl) hy
  constructor
  · intro hrun
    obtain ⟨⟨⟩, -, hrun⟩ := bind_eq_some.mp hrun
    exact hpairs.mp hrun
  · intro hfits
    exact bind_eq_some.mpr ⟨(), hself.mpr hfits.1, hpairs.mpr hfits⟩

theorem ssdRowAvx2_eq_some (hy : y ∈ (p.around block cx cy range).rows) :
    p.ssdRowAvx2 block (cy * p.stride + cx) (y * p.stride + (p.around block cx cy range).left)
        (p.around block cx cy range).count = some () ↔
      p.RowFits (block - 1 : Nat) ∧ BufferFits (p.around block cx cy range) :=
  h.ssdPairs_eq_some (by decide) (h.self_eq_some (by decide)).mpr hy

omit h in
/-- A candidate in each lane: the vectors of a row reach exactly to its last candidate. -/
theorem ssdRow4Candidates_eq_some (h : p.Placed 4 cx cy range) (hlanes : 0 < lanes)
    (hy : y ∈ (p.around 4 cx cy range).rows) :
    p.ssdRow4Candidates lanes (cy * p.stride + cx) (y * p.stride + (p.around 4 cx cy range).left)
        (p.around 4 cx cy range).count = some () ↔
      p.RowFits (4 - 1 : Nat) ∧ BufferFits (p.around 4 cx cy range) := by
  have hcount := h.count_pos
  rw [h.bufferFits_iff]
  constructor
  · intro hrun
    obtain ⟨c, hc, hlast⟩ := chunks_last hlanes hcount
    have hround := forM_eq_some.mp hrun c hc
    obtain ⟨⟨⟩, hrows, hstore⟩ := bind_eq_some.mp hround
    obtain ⟨o, ho, -⟩ := bind_eq_some.mp (forM_eq_some.mp hrows 3 (by decide))
    have hstore := store_eq_some.mp hstore
    exact ⟨((row_eq_some h.valid (by omega)).mp ho).1, by omega⟩
  · rintro ⟨hfits, hbuffer⟩
    refine forM_eq_some.mpr fun c hc => ?_
    obtain ⟨hpos, hle⟩ := chunks_le hlanes hc
    refine bind_eq_some.mpr ⟨(), forM_eq_some.mpr fun row hrow => ?_, store_eq_some.mpr (by omega)⟩
    have hrow : row < 4 := List.mem_range.mp hrow
    have hoffset : p.row row = some (row * p.stride) :=
      (row_eq_some h.valid (by omega)).mpr ⟨RowFits.mono h.valid hfits (by omega), rfl⟩
    refine bind_eq_some.mpr ⟨_, hoffset, forM_eq_some.mpr fun k hk => ?_⟩
    have hk : k < 4 := List.mem_range.mp hk
    have hself : p.load (cy * p.stride + cx + row * p.stride + k) 1 = some () := by
      have hinside := h.inside
      have hcx := hinside.left
      have hcy := hinside.top
      have hright := hinside.right
      have hbottom := hinside.bottom
      have heq : cy * p.stride + cx + row * p.stride + k = (cy + row) * p.stride + (cx + k) := by ring
      rw [heq]
      exact load_inside h.valid (by omega) (by omega) (by decide) (by omega) (by omega)
    have hcandidate : p.load (y * p.stride + (p.around 4 cx cy range).left + row * p.stride + c.1 + k) c.2 =
        some () := by
      obtain ⟨htop, hbottom, hleft, hright⟩ := h.around_bounds
      have hlast := h.right_eq
      have hyrange := Int.mem_range_iff.mp hy
      have heq : y * p.stride + (p.around 4 cx cy range).left + row * p.stride + c.1 + k =
          (y + row) * p.stride + ((p.around 4 cx cy range).left + c.1 + k) := by ring
      rw [heq]
      exact load_inside h.valid (by omega) (by omega) hpos (by omega) (by omega)
    exact bind_eq_some.mpr ⟨(), hself, hcandidate⟩

/-! ## The scans -/

/-- A scan reaches the last row, itself or in the general search. -/
theorem scan_eq_some {b : Build} {needs : Prop} {row : Int → Option Bool}
    (hrow : RowSpec p block cx cy range needs row) (hneeds : needs → p.RowFits (block - 1 : Nat))
    (hwindow : WindowFits cx cy range) (hgroup : 1 < group) :
    p.scan b block (p.around block cx cy range) cx cy range group row = some () ↔
      p.RowFits (p.around block cx cy range).bottom ∧ needs := by
  have hgeneral : p.collectSpatial b.target cx cy block range group = some () ↔ WindowFits cx cy range ∧
      (1 < group → ¬Alone (p.around block cx cy range) → p.OffsetsFit block (p.around block cx cy range)) :=
    h.collectSpatial_eq_some (by omega)
  constructor
  · intro hrun
    obtain ⟨nonfinite, hsearch, hrun⟩ := bind_eq_some.mp hrun
    cases nonfinite with
    | false =>
      have hlast := search_false hsearch h.bottom_mem
      exact (hrow.runs _ h.bottom_mem).mp (hlast ▸ rfl)
    | true =>
      obtain ⟨y, hy, hstop⟩ := search_true hsearch
      have hmore := hrow.stops y hy hstop
      exact ⟨((hgeneral.mp hrun).2 hgroup hmore).1, ((hrow.runs y hy).mp (hstop ▸ rfl)).2⟩
  · rintro ⟨hbottom, hn⟩
    have hrows : ∀ y ∈ (p.around block cx cy range).rows, (row y).isSome := by
      intro y hy
      have hyrange := Int.mem_range_iff.mp hy
      exact (hrow.runs y hy).mpr ⟨RowFits.mono h.valid hbottom (by omega), hn⟩
    obtain ⟨nonfinite, hsearch⟩ := Option.isSome_iff_exists.mp (search_isSome hrows)
    refine bind_eq_some.mpr ⟨nonfinite, hsearch, ?_⟩
    cases nonfinite with
    | false => rfl
    | true => exact hgeneral.mpr ⟨hwindow, fun _ _ => ⟨hbottom, hneeds hn⟩⟩

end Rows

/-! ## The kernels -/

/-- What a kernel of its own needs; `needs`: what its rows do besides. -/
structure KernelFits (p : Plane) (block : Nat) (cx cy range group : Int) (needs : Prop) : Prop where
  window : WindowFits cx cy range
  self : p.RowFits cy
  rows : 1 < group → p.OffsetsFit block (p.around block cx cy range) ∧ needs

/-- A kernel takes the window and the reference's row, and scans for more than one match. -/
theorem kernel_eq_some {needs : Prop} {run : Window → Int → Option Unit} (hgroup : 1 ≤ group)
    (hrun : WindowFits cx cy range → 1 < group →
      (run (p.around block cx cy range) (cy * p.stride) = some () ↔
        p.OffsetsFit block (p.around block cx cy range) ∧ needs)) :
    (do
      let w ← p.window block cx cy range
      let offset ← p.row cy
      if min group kBmMaxGroup ≤ 1 then some () else run w offset) = some () ↔
      KernelFits p block cx cy range group needs := by
  have hone : min group kBmMaxGroup ≤ 1 ↔ ¬1 < group := by unfold kBmMaxGroup; omega
  constructor
  · intro h'
    obtain ⟨w, hw, h'⟩ := bind_eq_some.mp h'
    obtain ⟨hwindow, rfl⟩ := h.window_eq_some.mp hw
    obtain ⟨o, ho, h'⟩ := bind_eq_some.mp h'
    obtain ⟨hself, rfl⟩ := (row_eq_some h.valid h.inside.top).mp ho
    refine ⟨hwindow, hself, fun hmany => ?_⟩
    rw [if_neg (fun heq => hone.mp heq hmany)] at h'
    exact (hrun hwindow hmany).mp h'
  · rintro ⟨hwindow, hself, hrows⟩
    refine bind_eq_some.mpr ⟨_, h.window_eq_some.mpr ⟨hwindow, rfl⟩, bind_eq_some.mpr ⟨_,
      (row_eq_some h.valid h.inside.top).mpr ⟨hself, rfl⟩, ?_⟩⟩
    by_cases hmany : 1 < group
    · rw [if_neg (fun heq => hone.mp heq hmany)]
      exact (hrun hwindow hmany).mpr (hrows hmany)
    · rw [if_pos (hone.mpr hmany)]

variable {b : Build} {finite : Int → Int → Bool}

omit h in
theorem spatialMatch8Ssd_eq_some (h : p.Placed 8 cx cy range) (hgroup : 1 ≤ group) :
    p.spatialMatch8Ssd finite b cx cy range group = some () ↔ KernelFits p 8 cx cy range group True := by
  refine h.kernel_eq_some hgroup fun hwindow hmany => ?_
  have hself : p.block 8 8 (cy * p.stride + cx) = some () ↔ p.RowFits (8 - 1 : Nat) :=
    h.self_eq_some (by decide)
  have hscan := h.scan_eq_some (b := b) (@pairRow_spec _ _ _ _ _ h finite) id hwindow hmany
  constructor
  · intro hrun
    obtain ⟨⟨⟩, -, hrun⟩ := bind_eq_some.mp hrun
    exact ⟨hscan.mp hrun, trivial⟩
  · rintro ⟨hoffsets, -⟩
    exact bind_eq_some.mpr ⟨(), hself.mpr hoffsets.2, hscan.mpr hoffsets⟩

omit h in
theorem spatialMatch8_eq_some {retry : Bool} (h : p.Placed 8 cx cy range) :
    p.spatialMatch8 b retry cx cy range = some () ↔ KernelFits p 8 cx cy range 8 True := by
  have hself : p.block 8 8 (cy * p.stride + cx) = some () ↔ p.RowFits (8 - 1 : Nat) :=
    h.self_eq_some (by decide)
  have hrow := @pairRow_spec _ _ _ _ _ h fun _ _ => true
  have hgeneral : p.collectSpatial b.target cx cy 8 range 8 = some () ↔ WindowFits cx cy range ∧
      (1 < (8 : Int) → ¬Alone (p.around 8 cx cy range) → p.OffsetsFit 8 (p.around 8 cx cy range)) :=
    h.collectSpatial_eq_some (by decide)
  have hno : ∀ y ∈ (p.around 8 cx cy range).rows,
      p.pairRow (fun _ _ => true) 8 (p.around 8 cx cy range) cx cy y ≠ some true := by
    intro y _ hrun
    obtain ⟨o, -, hrun⟩ := bind_eq_some.mp hrun
    obtain ⟨stop, hpairs, hrun⟩ := bind_eq_some.mp hrun
    split at hrun
    · obtain rfl := Option.some.inj hrun
      obtain ⟨k, -, hstop⟩ := search_true hpairs
      obtain ⟨⟨⟩, -, hstop⟩ := bind_eq_some.mp hstop
      obtain ⟨⟨⟩, -, hstop⟩ := bind_eq_some.mp hstop
      simp [stops] at hstop
    · obtain ⟨⟨⟩, -, hrun⟩ := bind_eq_some.mp hrun
      simp [stops] at hrun
  constructor
  · intro hrun
    obtain ⟨w, hw, hrun⟩ := bind_eq_some.mp hrun
    obtain ⟨hwindow, rfl⟩ := h.window_eq_some.mp hw
    obtain ⟨o, ho, hrun⟩ := bind_eq_some.mp hrun
    obtain ⟨hcy, rfl⟩ := (row_eq_some h.valid h.inside.top).mp ho
    obtain ⟨⟨⟩, hblock, hrun⟩ := bind_eq_some.mp hrun
    obtain ⟨stop, hsearch, -⟩ := bind_eq_some.mp hrun
    refine ⟨hwindow, hcy, fun _ => ⟨⟨?_, hself.mp hblock⟩, trivial⟩⟩
    cases stop with
    | true =>
      obtain ⟨y, hy, hstop⟩ := search_true hsearch
      exact absurd hstop (hno y hy)
    | false => exact ((hrow.runs _ h.bottom_mem).mp (search_false hsearch h.bottom_mem ▸ rfl)).1
  · rintro ⟨hwindow, hcy, hrows⟩
    obtain ⟨hoffsets, -⟩ := hrows (by decide)
    have hruns : ∀ y ∈ (p.around 8 cx cy range).rows,
        (p.pairRow (fun _ _ => true) 8 (p.around 8 cx cy range) cx cy y).isSome := by
      intro y hy
      have hyrange := Int.mem_range_iff.mp hy
      exact (hrow.runs y hy).mpr ⟨RowFits.mono h.valid hoffsets.1 (by omega), hoffsets.2⟩
    obtain ⟨stop, hsearch⟩ := Option.isSome_iff_exists.mp (search_isSome hruns)
    refine bind_eq_some.mpr ⟨_, h.window_eq_some.mpr ⟨hwindow, rfl⟩, bind_eq_some.mpr ⟨_,
      (row_eq_some h.valid h.inside.top).mpr ⟨hcy, rfl⟩, bind_eq_some.mpr ⟨(), hself.mpr hoffsets.2,
      bind_eq_some.mpr ⟨stop, hsearch, ?_⟩⟩⟩⟩
    cases retry with
    | false => rfl
    | true => exact hgeneral.mpr ⟨hwindow, fun _ _ => hoffsets⟩

/-- A fast path whose rows need `needs` besides the offsets. -/
theorem rows_eq_some {needs : Prop} {row : Int → Option Bool}
    (hrow : RowSpec p block cx cy range (p.RowFits (block - 1 : Nat) ∧ needs) row)
    (hwindow : WindowFits cx cy range) (hmany : 1 < group) :
    p.scan b block (p.around block cx cy range) cx cy range group row = some () ↔
      p.OffsetsFit block (p.around block cx cy range) ∧ needs := by
  rw [h.scan_eq_some hrow (fun hneeds => hneeds.1) hwindow hmany, OffsetsFit, and_assoc]

omit h in
/-- The rows of the 4-blocks go through the buffer on some targets. -/
theorem row4_spec (h : p.Placed 4 cx cy range) {avx2Enabled : Bool} :
    RowSpec p 4 cx cy range (p.RowFits (4 - 1 : Nat) ∧
      (b.target = .avx3 ∨ b.target = .avx2 ∧ b.experiment.testBit 1 ∧ avx2Enabled →
        BufferFits (p.around 4 cx cy range)))
      (p.row4 finite b avx2Enabled (cy * p.stride + cx) (p.around 4 cx cy range) cx cy) := by
  unfold row4
  by_cases hwide : b.target = .avx3
  · rw [if_pos hwide]
    simpa [hwide] using h.bufferedRow_spec fun y hy => ssdRow4Candidates_eq_some h (by decide) hy
  · rw [if_neg hwide]
    by_cases havx2 : b.target = .avx2 ∧ b.experiment.testBit 1 ∧ avx2Enabled
    · rw [if_pos havx2]
      simpa [havx2] using h.bufferedRow_spec fun y hy => ssdRow4Candidates_eq_some h (by decide) hy
    · rw [if_neg havx2]
      simpa [hwide, havx2] using h.pairRow_spec

omit h in
theorem spatialMatch4Fast_eq_some (h : p.Placed 4 cx cy range) {avx2Enabled : Bool}
    (htarget : b.target ≠ .scalar) (hgroup : 1 ≤ group) :
    p.spatialMatch4Fast finite b cx cy range group avx2Enabled = some () ↔
      KernelFits p 4 cx cy range group (b.target = .avx3 ∨
        b.target = .avx2 ∧ b.experiment.testBit 1 ∧ avx2Enabled → BufferFits (p.around 4 cx cy range)) := by
  unfold spatialMatch4Fast
  rw [if_neg htarget]
  refine h.kernel_eq_some hgroup fun hwindow hmany => ?_
  have hself : p.block 4 4 (cy * p.stride + cx) = some () ↔ p.RowFits (4 - 1 : Nat) :=
    h.self_eq_some (by decide)
  have hscan := h.rows_eq_some (b := b) (@row4_spec _ _ _ _ b finite h avx2Enabled) hwindow hmany
  constructor
  · intro hrun
    obtain ⟨⟨⟩, -, hrun⟩ := bind_eq_some.mp hrun
    exact hscan.mp hrun
  · intro hfits
    refine bind_eq_some.mpr ⟨(), ?_, hscan.mpr hfits⟩
    unfold reference4
    split
    · rfl
    · exact hself.mpr hfits.1.2

/-- Where the 12- and the 16-blocks have rows of their own. -/
theorem spatialMatchRows_eq_some {bit : Nat} {avx2Enabled : Bool} (hgroup : 1 ≤ group)
    (hbuffered : b.target = .avx3 ∨ b.target = .avx2 ∧ b.experiment.testBit bit ∧ avx2Enabled) :
    p.spatialMatchRows finite b block bit cx cy range group avx2Enabled = some () ↔
      KernelFits p block cx cy range group (BufferFits (p.around block cx cy range)) := by
  unfold spatialMatchRows
  rw [if_neg (by rcases hbuffered with ht | ⟨ht, -, he⟩ <;> simp [*]),
    if_pos (by rcases hbuffered with ht | ⟨ht, he, -⟩ <;> simp [*])]
  refine h.kernel_eq_some hgroup fun hwindow hmany => ?_
  apply h.rows_eq_some _ hwindow hmany
  apply h.bufferedRow_spec
  intro y hy
  split
  · exact h.ssdRowAvx2_eq_some hy
  · exact h.ssdRow_eq_some hy

omit h in
/-- Elsewhere they take the general search. -/
theorem spatialMatchRows_general {bit : Nat} {avx2Enabled : Bool}
    (hgeneral : ¬(b.target = .avx3 ∨ b.target = .avx2 ∧ b.experiment.testBit bit ∧ avx2Enabled)) :
    p.spatialMatchRows finite b block bit cx cy range group avx2Enabled =
      p.collectSpatial b.target cx cy block range group := by
  unfold spatialMatchRows
  split
  · rfl
  · rename_i hoff
    rw [if_neg]
    rintro (ht | ⟨he, ht⟩)
    · exact hgeneral (.inl ht)
    · refine hgeneral (.inr ⟨ht, he, ?_⟩)
      simpa [ht] using hoff

end Placed

end Plane

/-! ## The matcher -/

namespace Call

open Plane Plane.Placed

variable (c : Call)

/-- Numbers that are `int`s. -/
structure Ints : Prop where
  stride : Fits c.plane.stride
  width : Fits c.plane.width
  height : Fits c.plane.height
  bx : Fits c.bx
  by_ : Fits c.by_
  block : Fits c.block
  bmRange : Fits c.bmRange
  group : Fits c.group

def window : Window := c.plane.around c.block.toNat c.cx c.cy (max c.bmRange 0)

/-- The target's rows go through the buffer; on AVX2 where the build and the caller say so. -/
def Wide (b : Build) (bit : Nat) : Prop :=
  b.target = .avx3 ∨ b.target = .avx2 ∧ b.experiment.testBit bit ∧ c.avx2Features.testBit bit

instance (b : Build) (bit : Nat) : Decidable (c.Wide b bit) := inferInstanceAs (Decidable (_ ∨ _))

/-- The distances of a row go through the buffer. -/
def Buffered (b : Build) : Prop :=
  c.block = 4 ∧ c.Wide b 1 ∨ (c.block = 12 ∧ b.b12Fast) ∧ c.Wide b 2 ∨ c.block = 16 ∧ c.Wide b 3

instance (b : Build) : Decidable (c.Buffered b) := inferInstanceAs (Decidable (_ ∨ _))

/-- The block has a kernel of its own. -/
def Own (b : Build) : Prop :=
  c.block = 8 ∧ (b.target = .avx3 ∨ b.target = .avx2) ∨ c.block = 4 ∧ b.target ≠ .scalar ∨ c.Buffered b

instance (b : Build) : Decidable (c.Own b) := inferInstanceAs (Decidable (_ ∨ _))

/-- What a call needs: the ends of its window and the offsets of its rows are `int`s, and a row
of distances fits the buffer that it goes through. -/
structure InRange (b : Build) : Prop where
  window : WindowFits c.cx c.cy (max c.bmRange 0)
  self : c.Own b → c.plane.RowFits c.cy
  rows : 1 < c.group → c.Own b ∨ ¬Alone c.window → c.plane.OffsetsFit c.block.toNat c.window
  buffer : 1 < c.group → c.Buffered b → BufferFits c.window

variable {c}

theorem placed (hints : c.Ints) (haccepted : c.rejected = false) :
    c.plane.Placed c.block.toNat c.cx c.cy (max c.bmRange 0) := by
  have hchecks := of_decide_eq_false haccepted
  have hstride := hints.stride.2
  have hheight := hints.height.2
  have hrange := hints.bmRange.2
  have hmax : intMax = 2147483647 := rfl
  have hblock : (c.block.toNat : Int) = c.block := by omega
  refine ⟨⟨by omega, by omega, by omega, hstride, hheight⟩, ?_, by omega, by omega, by omega⟩
  unfold cx cy clampPlace
  refine ⟨?_, ?_, ?_, ?_⟩
  · omega
  · rw [hblock]; omega
  · omega
  · rw [hblock]; omega

theorem group_pos (haccepted : c.rejected = false) : 1 ≤ c.group := by
  have hchecks := of_decide_eq_false haccepted
  omega

/-- A call of a kernel of its own. -/
theorem inRange_iff_kernel {b : Build} {needs : Prop} (hown : c.Own b)
    (hneeds : needs ↔ (c.Buffered b → BufferFits c.window)) :
    KernelFits c.plane c.block.toNat c.cx c.cy (max c.bmRange 0) c.group needs ↔ c.InRange b := by
  constructor
  · rintro ⟨hwindow, hself, hrows⟩
    exact ⟨hwindow, fun _ => hself, fun hmany _ => (hrows hmany).1, fun hmany => hneeds.mp (hrows hmany).2⟩
  · rintro ⟨hwindow, hself, hrows, hbuffer⟩
    exact ⟨hwindow, hself hown, fun hmany => ⟨hrows hmany (.inl hown), hneeds.mpr (hbuffer hmany)⟩⟩

/-- A call of the general search. -/
theorem inRange_iff_general {b : Build} (hown : ¬c.Own b) (hbuffered : ¬c.Buffered b) :
    (WindowFits c.cx c.cy (max c.bmRange 0) ∧
      (1 < c.group → ¬Alone c.window → c.plane.OffsetsFit c.block.toNat c.window)) ↔ c.InRange b := by
  constructor
  · rintro ⟨hwindow, hrows⟩
    exact ⟨hwindow, fun h => absurd h hown, fun hmany h => hrows hmany (h.resolve_left hown),
      fun _ h => absurd h hbuffered⟩
  · rintro ⟨hwindow, -, hrows, -⟩
    exact ⟨hwindow, fun hmany h => hrows hmany (.inr h)⟩

/-- The general search clamps its range itself. -/
theorem collectSpatial_max {p : Plane} {target : Target} {bx by_ range group : Int} {block : Nat} :
    p.collectSpatial target bx by_ block (max range 0) group = p.collectSpatial target bx by_ block range group := by
  unfold Plane.collectSpatial
  rw [max_assoc, max_self]

/-- The frontend's ranges fit the buffer. -/
theorem bufferFits_of_range (h : c.bmRange ≤ kBmMaxRange) : BufferFits c.window := by
  unfold kBmMaxRange at h
  unfold BufferFits window around kBmMaxRange
  dsimp only
  omega

variable {b : Build} {finite : Int → Int → Bool} {retry : Bool}

theorem not_buffered_of_block (h4 : c.block ≠ 4) (h12 : ¬(c.block = 12 ∧ b.b12Fast)) (h16 : c.block ≠ 16) :
    ¬c.Buffered b := by
  rintro (⟨h, -⟩ | ⟨h, -⟩ | ⟨h, -⟩)
  · exact h4 h
  · exact h12 h
  · exact h16 h

/-- The rows of the 12- and of the 16-blocks. -/
theorem spatialMatchRows_iff (hints : c.Ints) (haccepted : c.rejected = false) {bit : Nat}
    (hbuffered : c.Buffered b ↔ c.Wide b bit) (hown : c.Own b ↔ c.Buffered b) :
    c.plane.spatialMatchRows finite b c.block.toNat bit c.cx c.cy (max c.bmRange 0) c.group
      (c.avx2Features.testBit bit) = some () ↔ c.InRange b := by
  have hplaced := placed hints haccepted
  have hgroup := group_pos haccepted
  by_cases hwide : c.Wide b bit
  · have hb := hbuffered.mpr hwide
    rw [hplaced.spatialMatchRows_eq_some hgroup hwide]
    exact inRange_iff_kernel (hown.mpr hb) ⟨fun h _ => h, fun h => h hb⟩
  · have hb := mt hbuffered.mp hwide
    rw [spatialMatchRows_general hwide, hplaced.collectSpatial_eq_some hgroup]
    exact inRange_iff_general (mt hown.mp hb) hb

/-- Every access of the matcher is in bounds exactly for the calls in range. -/
theorem runs_iff (hints : c.Ints) (haccepted : c.rejected = false) :
    c.spatialMatch b finite retry = some () ↔ c.InRange b := by
  have hplaced := placed hints haccepted
  have hgroup := group_pos haccepted
  unfold spatialMatch
  dsimp only
  rw [haccepted, if_neg Bool.false_ne_true]
  by_cases h8 : c.block = 8 ∧ (b.target = .avx3 ∨ b.target = .avx2)
  · have hb : ¬c.Buffered b := not_buffered_of_block (by omega) (by omega) (by omega)
    have hn : c.block.toNat = 8 := by omega
    have hkernel := inRange_iff_kernel (c := c) (b := b) (.inl h8) ⟨fun _ h => absurd h hb, fun _ => trivial⟩
    rw [hn] at hplaced hkernel
    rw [if_pos h8, ← hkernel]
    by_cases hg : c.group = 8
    · rw [if_pos hg, hg]
      exact spatialMatch8_eq_some hplaced
    · rw [if_neg hg]
      exact spatialMatch8Ssd_eq_some hplaced hgroup
  rw [if_neg h8]
  by_cases h4 : c.block = 4 ∧ b.target ≠ .scalar
  · have hb : c.Buffered b ↔ c.Wide b 1 := by simp [Buffered, h4.1]
    have hn : c.block.toNat = 4 := by omega
    have hkernel := inRange_iff_kernel (c := c) (b := b) (.inr (.inl h4))
      (show (c.Wide b 1 → BufferFits c.window) ↔ _ by rw [hb])
    unfold window at hkernel
    rw [hn] at hplaced hkernel
    rw [if_pos h4, ← hkernel]
    exact spatialMatch4Fast_eq_some hplaced h4.2 hgroup
  rw [if_neg h4]
  by_cases h12 : c.block = 12 ∧ b.b12Fast
  · have hb : c.Buffered b ↔ c.Wide b 2 := by simp [Buffered, h12.1, h12.2]
    have hrows := @spatialMatchRows_iff c b finite hints haccepted 2 hb (by simp [Own, h12.1])
    rw [show c.block.toNat = 12 by omega] at hrows
    rw [if_pos h12]
    exact hrows
  rw [if_neg h12]
  by_cases h16 : c.block = 16
  · have hb : c.Buffered b ↔ c.Wide b 3 := by simp [Buffered, h16]
    have hrows := @spatialMatchRows_iff c b finite hints haccepted 3 hb (by simp [Own, h16])
    rw [show c.block.toNat = 16 by omega] at hrows
    rw [if_pos h16]
    exact hrows
  have hown : ¬c.Own b := by
    rintro (h | h | h)
    · exact h8 h
    · exact h4 h
    · rcases h with h | h | h
      · refine h4 ⟨h.1, ?_⟩
        rcases h.2 with ht | ht <;> simp [ht]
      · exact h12 h.1
      · exact h16 h.1
  rw [if_neg h16, ← collectSpatial_max, hplaced.collectSpatial_eq_some hgroup]
  exact inRange_iff_general hown fun h => hown (.inr (.inr h))

/-- The spatial search of `predictive_match`. -/
def predictive (s : Temporal) (strides : Int → Int) (bx by_ : Int) (features : Nat) : Call :=
  ⟨⟨strides s.t0, s.width, s.height⟩, bx, by_, s.cfg.block, s.cfg.bmRange, s.cfg.group, features⟩

theorem predictive_accepted {s : Temporal} {strides : Int → Int} {bx by_ : Int} {features : Nat}
    (h : s.admits strides = true) : (predictive s strides bx by_ features).rejected = false := by
  have h := of_decide_eq_true h
  refine decide_eq_false ?_
  unfold predictive
  dsimp only
  omega

end Call

/-- `spatial_match` on the arguments it accepts, also as `predictive_match` calls it, whose other
frames are read inside of the image too. -/
theorem in_bounds (b : Build) (finite : Int → Int → Bool) (retry : Bool) :
    (∀ c : Call, c.Ints → c.rejected = false → (c.spatialMatch b finite retry = some () ↔ c.InRange b)) ∧
    ∀ (s : Temporal) (strides : Int → Int), s.admits strides = true →
      (∀ bx by_ features, (Call.predictive s strides bx by_ features).Ints →
        ((Call.predictive s strides bx by_ features).spatialMatch b finite retry = some () ↔
          (Call.predictive s strides bx by_ features).InRange b)) ∧
      ∀ t centers, ∀ place ∈ (s.windows centers).layerVisits s.height,
        Plane.Inside ⟨strides t, s.width, s.height⟩ s.cfg.block.toNat place.1 place.2 := by
  refine ⟨fun c hints haccepted => c.runs_iff hints haccepted, fun s strides h => ⟨?_, ?_⟩⟩
  · intro bx by_ features hints
    exact Call.runs_iff hints (Call.predictive_accepted h)
  · intro t centers place hplace
    have h := of_decide_eq_true h
    have hvisits : (s.windows centers).layerVisits s.height = (s.windows centers).union :=
      Windows.layerVisits_eq (by omega) (by simp only [Temporal.windows]; omega)
    rw [hvisits] at hplace
    obtain ⟨hx, hy, -⟩ := Windows.mem_union.mp hplace
    simp only [Temporal.windows] at hx hy
    exact ⟨by omega, by dsimp only; omega, by omega, by dsimp only; omega⟩

/-- The 4-blocks of an image of two, in the largest range of the frontend. -/
def smallCall : Call := ⟨⟨8, 8, 8⟩, 2, 2, 4, 64, 8, 0⟩

theorem in_bounds_small : smallCall.spatialMatch ⟨.avx3, 0, true⟩ (fun _ _ => true) false = some () ∧
    ((Call.predictive (Temporal.twoPixels F32.zero) (fun _ => 1) 0 0 0).spatialMatch ⟨.sse, 0, true⟩
      (fun _ _ => true) false = some () ↔
        (Call.predictive (Temporal.twoPixels F32.zero) (fun _ => 1) 0 0 0).InRange ⟨.sse, 0, true⟩) := by
  constructor
  · refine ((in_bounds ⟨.avx3, 0, true⟩ (fun _ _ => true) false).1 smallCall ?_ (by decide)).mpr ?_
    · constructor <;> decide
    · exact ⟨by decide, by decide, by decide, fun _ _ => Call.bufferFits_of_range (by decide)⟩
  · refine ((in_bounds ⟨.sse, 0, true⟩ (fun _ _ => true) false).2 (Temporal.twoPixels F32.zero) (fun _ => 1)
      (by decide)).1 0 0 0 ?_
    constructor <;> decide

/-- A row of 130 candidates. -/
def longRow : Call := ⟨⟨133, 133, 4⟩, 0, 0, 4, 129, 2, 0⟩

/-- A range whose end is no `int`. -/
def farRange : Call := ⟨⟨6, 6, 6⟩, 1, 0, 5, 2147483647, 2, 0⟩

/-- Accepted calls that store behind the buffer, and whose window overflows. -/
theorem out_of_bounds :
    (longRow.rejected = false ∧ longRow.spatialMatch ⟨.avx3, 0, true⟩ (fun _ _ => true) false = none) ∧
      farRange.rejected = false ∧ farRange.spatialMatch ⟨.sse, 0, true⟩ (fun _ _ => true) false = none := by
  decide

end NssFactory.Cpu.SpatialBounds
