import NssFactory.Cpu.WeightMap
import NssFactory.Lib.Mirror

/-!
# The tiles of DA3D

The tile grid of `params/da3d.hpp` and the way `Da3dDenoise` (`cpu/da3d/da3d.cpp`) fills a tile
from the plane, reads patches from it and adds its sums to the plane, with the buffer these
live in. The `int` expressions return none where they leave the type; `size_t` and `int64`
values are far from the ends of theirs.

A tile is filled from the plane mirrored at its borders, 31 pixels before its core and 32 after.
`Plane` stands for the channels of a pixel, after the colour transform where there is one.
-/

namespace NssFactory.Da3d

open CInt Mirror

/-! ## Sources of a tile -/

def mirrorFront (pos : Int) : Option Int :=
  if pos < 0 then do
    let pos ← ofInt (-pos)
    sub pos 1
  else some pos

def wrapPeriod (pos size : Int) : Option Int := do
  let period ← mul 2 size
  if period ≤ pos then mod pos period else some pos

def mirrorBack (pos size : Int) : Option Int :=
  if size ≤ pos then do
    let period ← mul 2 size
    let last ← sub period 1
    sub last pos
  else some pos

/-- `symmetric`. -/
def symmetric (pos size : Int) : Option Int := do
  let pos ← mirrorFront pos
  let pos ← wrapPeriod pos size
  mirrorBack pos size

/-! ## The grid -/

/-- `da3d_tile_count`. -/
def tileCount (n : Int) : Option Int := do
  let n ← add n 64
  let count ← div n 128
  some (if 0 < count then count else 1)

/-- `da3d_tile_start`; the product is an `int64`. -/
def tileStart (n count i : Int) : Option Int := ofInt ((n * i).tdiv count)

def longerTile (n count best i : Int) : Option Int := do
  let next ← add i 1
  let last ← tileStart n count next
  let first ← tileStart n count i
  let e ← sub last first
  some (if best < e then e else best)

/-- `da3d_tile_max`. -/
def tileMax (n : Int) : Option Int := do
  let count ← tileCount n
  upTo 0 (count - 1) 0 (longerTile n count)

/-! ## Planes and buffers -/

/-- A plane of the image, `int` wide and high. -/
structure Plane (α : Type) where
  height : Int
  width : Int
  pixel : Int → Int → α

def Plane.get {α : Type} (p : Plane α) (y x : Int) : Option α :=
  if (0 ≤ y ∧ y < p.height) ∧ 0 ≤ x ∧ x < p.width then some (p.pixel y x) else none

/-- A buffer, some of whose cells have been written. -/
structure Cells (α : Type) where
  size : Int
  data : Int → Option α

namespace Cells

variable {α : Type} (b : Cells α)

def empty (size : Int) : Cells α := ⟨size, fun _ => none⟩

def get (i : Int) : Option α := if 0 ≤ i ∧ i < b.size then b.data i else none

def put (i : Int) (v : α) : Option (Cells α) :=
  if 0 ≤ i ∧ i < b.size then some ⟨b.size, Function.update b.data i (some v)⟩ else none

end Cells

/-! ## A tile in `Da3dDenoise` -/

section Tile

variable {α : Type} (img : Plane α) (tileW r0 r1 c0 c1 : Int)

def fillCell (row sy : Int) (t : Cells α) (col : Int) : Option (Cells α) := do
  let first ← sub c0 31
  let pos ← add first col
  let sx ← symmetric pos img.width
  let v ← img.get sy sx
  t.put (row * tileW + col) v

def fillRow (t : Cells α) (row : Int) : Option (Cells α) := do
  let first ← sub r0 31
  let pos ← add first row
  let sy ← symmetric pos img.height
  upTo 0 (c1 - c0 + 63 - 1) t (fillCell img tileW c0 row sy)

/-- The loop that fills the tile: `ph` rows of `pw` columns. -/
def fillTile (t : Cells α) : Option (Cells α) :=
  upTo 0 (r1 - r0 + 63 - 1) t (fillRow img tileW r0 c0 c1)

/-- Element `i` of the patch at core pixel `(pr, pc)`, in the tile. -/
def patchIndex (pr pc i : Int) : Int := pr * tileW + pc + (i / 64 * tileW + i % 64)

variable [Add α]

def addCell (width trow row : Int) (t : Cells α) (num : Cells α) (col : Int) : Option (Cells α) := do
  let first ← sub c0 31
  let tcol ← sub col first
  let v ← t.get (trow * tileW + tcol)
  let old ← num.get (row * width + col)
  num.put (row * width + col) (old + v)

def addRow (width : Int) (t : Cells α) (num : Cells α) (row : Int) : Option (Cells α) := do
  let first ← sub r0 31
  let trow ← sub row first
  let left ← sub c0 31
  let right ← add c1 32
  upTo (max 0 left) (min width right - 1) num (addCell tileW c0 width trow row t)

/-- The loop that adds the sums of the tile to those of the plane. -/
def addTile (height width : Int) (t : Cells α) (num : Cells α) : Option (Cells α) := do
  let top ← sub r0 31
  let bottom ← add r1 32
  upTo (max 0 top) (min height bottom - 1) num (addRow tileW r0 c0 c1 width t)

end Tile

/-! ## The work buffer -/

/-- `align16`: the low four bits of `n + 15` cleared. -/
def align16 (n : Nat) : Nat := (n + 15) / 16 * 16

/-- Buffers taken one after the other from `p` on: where they start and how long they are. -/
def takes (pad : Nat → Nat) : Nat → List Nat → List (Nat × Nat)
  | _, [] => []
  | p, n :: sizes => (p, n) :: takes pad (p + pad n) sizes

/-- The levels of a map, as `WeightMap::floats` counts them and `init` takes them. -/
def levelSizes (h w : Nat) : List Nat :=
  (List.range (levelCount h w)).map fun l => side (nextPow2 h) l * side (nextPow2 w) l

/-- `WeightMap::floats`. -/
def weightMapFloats (h w : Nat) : Nat := ((levelSizes h w).map align16).sum

/-- The arrays of a patch, `carve` takes them one by one. -/
def patchArrays : List Nat := List.replicate (2 * 3 + 1 + 2 + 3 * 2 + 2 * 2) 4096

/-- `Patch::floats`. -/
def patchFloats : Nat := 4096 * (2 * 3 + 1 + 2 + 3 * 2 + 2 * 2)

/-- What `Da3dDenoise` takes of the work buffer. -/
def workSizes (plane tile map channels : Nat) : List Nat :=
  List.replicate channels plane ++ [plane] ++ (List.replicate channels [tile, tile, tile]).flatten ++
    [tile] ++ [map] ++ [patchFloats]

/-- `da3d_work_floats`. -/
def da3dWorkFloats (width height : Int) (channels : Nat) : Option Nat := do
  let w ← tileMax width
  let h ← tileMax height
  let plane := width.toNat * height.toNat
  let tile := (w + 63).toNat * (h + 63).toNat
  some ((channels + 1) * align16 plane + (3 * channels + 1) * align16 tile +
    align16 (weightMapFloats h.toNat w.toNat) + align16 patchFloats + 16)

/-- The buffers of `Da3dDenoise`, from the start of `work`. -/
def da3dTakes (width height : Int) (channels : Nat) : Option (List (Nat × Nat)) := do
  let w ← tileMax width
  let h ← tileMax height
  let plane := width.toNat * height.toNat
  let tile := (w + 63).toNat * (h + 63).toNat
  some (takes align16 0 (workSizes plane tile (weightMapFloats h.toNat w.toNat) channels))

/-! ## Mirroring -/

section Mirroring

variable {n pos : Int}

theorem mirrorFront_eq (hpos : -2147483648 < pos) (hpos' : pos ≤ 2147483647) :
    mirrorFront pos = some (if pos < 0 then -pos - 1 else pos) := by
  rw [mirrorFront]
  split_ifs
  · simp (disch := omega) only [sub, ofInt_eq, Option.bind_eq_bind, Option.bind_some]
  · rfl

theorem wrapPeriod_eq (hn : 1 ≤ n) (hmax : n < 2 ^ 30) (h₀ : 0 ≤ pos) (h₁ : pos ≤ 2147483647) :
    wrapPeriod pos n = some (pos % (2 * n)) := by
  have hmul : mul 2 n = some (2 * n) := ofInt_eq (by omega) (by omega)
  rw [wrapPeriod, hmul]
  simp only [Option.bind_eq_bind, Option.bind_some]
  split_ifs with h
  · exact mod_of_nonneg h₀ h₁ (by omega)
  · rw [Int.emod_eq_of_lt h₀ (by omega)]

theorem mirrorBack_eq (hn : 1 ≤ n) (hmax : n < 2 ^ 30) (h₀ : 0 ≤ pos) (h₁ : pos < 2 * n) :
    mirrorBack pos n = some (if pos < n then pos else 2 * n - 1 - pos) := by
  rw [mirrorBack]
  by_cases h : n ≤ pos
  · rw [if_pos h, if_neg (by omega)]
    simp (disch := omega) only [mul, sub, ofInt_eq, Option.bind_eq_bind, Option.bind_some]
  · rw [if_neg h, if_pos (by omega)]

/-- What `symmetric` computes for every position but the least `int`. -/
theorem symmetric_eq (hn : 1 ≤ n) (hmax : n < 2 ^ 30) (hpos : -2147483648 < pos) (hpos' : pos ≤ 2147483647) :
    symmetric pos n = some (reflect n pos) := by
  have hfront : reflect n (if pos < 0 then -pos - 1 else pos) = reflect n pos := by
    split_ifs
    · exact reflect_neg hn
    · rfl
  obtain ⟨x, hx⟩ : ∃ x, x = if pos < 0 then -pos - 1 else pos := ⟨_, rfl⟩
  have hbounds : 0 ≤ x ∧ x ≤ 2147483647 := by
    rw [hx]
    split_ifs <;> omega
  have h₀ := Int.emod_nonneg x (show 2 * n ≠ 0 by omega)
  have h₁ := Int.emod_lt_of_pos x (show 0 < 2 * n by omega)
  rw [← hfront, ← hx, symmetric, mirrorFront_eq hpos hpos', ← hx]
  simp only [Option.bind_eq_bind, Option.bind_some, wrapPeriod_eq hn hmax hbounds.1 hbounds.2,
    mirrorBack_eq hn hmax h₀ h₁, reflect]

/-- Twice the size of a plane from `2 ^ 30` on is no `int`. -/
theorem symmetric_of_le (hn : 2 ^ 30 ≤ n) (pos : Int) : symmetric pos n = none := by
  have hmul : mul 2 n = none := by
    refine ofInt_eq_none.mpr fun h => ?_
    have hmax : intMax = 2147483647 := rfl
    have := h.2
    omega
  simp only [symmetric, wrapPeriod, hmul, Option.bind_eq_bind, Option.bind_none, Option.bind_fun_none]

end Mirroring

/-! ## The tiles of an axis -/

section Axis

variable {n count i x : Int}

theorem tileCount_spec (hn : 1 ≤ n) (hmax : n < 2 ^ 30) :
    ∃ count, tileCount n = some count ∧ 1 ≤ count ∧ count ≤ n ∧ n ≤ 191 * count := by
  have hdiv : div (n + 64) 128 = some ((n + 64) / 128) :=
    div_of_nonneg (by omega) (by simp only [intMax]; omega) (by omega)
  have hadd : add n 64 = some (n + 64) := ofInt_eq (by omega) (by omega)
  refine ⟨if 0 < (n + 64) / 128 then (n + 64) / 128 else 1, ?_, ?_⟩
  · simp only [tileCount, hadd, hdiv, Option.bind_eq_bind, Option.bind_some]
  · split_ifs <;> omega

/-- Where tile `i` starts. -/
def start (n count i : Int) : Int := n * i / count

theorem start_zero : start n count 0 = 0 := by simp [start]

theorem start_count (hc : 1 ≤ count) : start n count count = n := Int.mul_ediv_cancel n (by omega)

/-- The tiles that start up to `x` are the first ones. -/
theorem start_le_iff (hn : 1 ≤ n) (hc : 1 ≤ count) :
    start n count i ≤ x ↔ i ≤ ((x + 1) * count - 1) / n := by
  rw [Int.le_ediv_iff_mul_le (by omega), start, ← Int.lt_add_one_iff, Int.ediv_lt_iff_lt_mul (by omega),
    Int.mul_comm i n]
  omega

theorem start_succ (hc : 1 ≤ count) (hcount : count ≤ n) (hlong : n ≤ 191 * count) (i : Int) :
    1 ≤ start n count (i + 1) - start n count i ∧ start n count (i + 1) - start n count i ≤ 191 := by
  have hnext : n * (i + 1) = n * i + n := by rw [Int.mul_add, Int.mul_one]
  have hone : n * i / count + 1 ≤ n * (i + 1) / count := by
    rw [← Int.add_mul_ediv_right (n * i) 1 (show count ≠ 0 by omega), hnext]
    exact Int.ediv_le_ediv (by omega) (by omega)
  have hmany : n * (i + 1) / count ≤ n * i / count + 191 := by
    rw [← Int.add_mul_ediv_right (n * i) 191 (show count ≠ 0 by omega), hnext]
    exact Int.ediv_le_ediv (by omega) (by omega)
  simp only [start]
  omega

theorem start_mem (hn : 1 ≤ n) (hc : 1 ≤ count) (hi : 0 ≤ i) (hi' : i ≤ count) :
    0 ≤ start n count i ∧ start n count i ≤ n := by
  constructor
  · exact Int.ediv_nonneg (Int.mul_nonneg (by omega) hi) (by omega)
  · have h := Int.ediv_le_ediv (show 0 < count by omega) (Int.mul_le_mul_of_nonneg_left hi' (show 0 ≤ n by omega))
    rwa [Int.mul_ediv_cancel n (by omega)] at h

theorem tileStart_eq (hn : 1 ≤ n) (hmax : n < 2 ^ 30) (hc : 1 ≤ count) (hi : 0 ≤ i) (hi' : i ≤ count) :
    tileStart n count i = some (start n count i) := by
  obtain ⟨h₀, h₁⟩ := start_mem hn hc hi hi'
  rw [tileStart, Int.tdiv_eq_ediv_of_nonneg (Int.mul_nonneg (by omega) hi)]
  exact ofInt_eq (by rw [start] at h₀; omega) (by rw [start] at h₁; omega)

theorem tileMax_spec (hn : 1 ≤ n) (hmax : n < 2 ^ 30) (hcount : tileCount n = some count) :
    ∃ longest, tileMax n = some longest ∧ 1 ≤ longest ∧ longest ≤ 191 ∧
      ∀ i, 0 ≤ i → i < count → start n count (i + 1) - start n count i ≤ longest := by
  obtain ⟨_, hcount', hc, hle, hlong⟩ := tileCount_spec hn hmax
  obtain rfl := Option.some.inj (hcount.symm.trans hcount')
  have hround : ∀ best i, 0 ≤ i → i ≤ count - 1 →
      (0 ≤ best ∧ best ≤ 191 ∧ ∀ j, 0 ≤ j → j < i → start n count (j + 1) - start n count j ≤ best) →
      ∃ best', longerTile n count best i = some best' ∧ 0 ≤ best' ∧ best' ≤ 191 ∧
        ∀ j, 0 ≤ j → j < i + 1 → start n count (j + 1) - start n count j ≤ best' := by
    rintro best i hi hi' ⟨h₀, h₁, hall⟩
    obtain ⟨hlow, hhigh⟩ := start_succ hc hle hlong i
    have hnext : add i 1 = some (i + 1) := ofInt_eq (by omega) (by omega)
    have hmem := start_mem hn hc hi (by omega)
    have hmem' := start_mem hn hc (show 0 ≤ i + 1 by omega) (by omega)
    have hsub : sub (start n count (i + 1)) (start n count i) =
        some (start n count (i + 1) - start n count i) := ofInt_eq (by omega) (by omega)
    refine ⟨max best (start n count (i + 1) - start n count i), ?_, by omega, by omega, fun j hj hj' => ?_⟩
    · simp only [longerTile, hnext, tileStart_eq hn hmax hc hi (by omega),
        tileStart_eq hn hmax hc (show 0 ≤ i + 1 by omega) (by omega), hsub, Option.bind_eq_bind,
        Option.bind_some, Option.some.injEq]
      split_ifs <;> omega
    · by_cases hji : j = i
      · rw [hji]
        omega
      · have := hall j hj (by omega)
        omega
  obtain ⟨longest, hloop, h₀, h₁, hall⟩ := upTo_stages
    (fun x best => 0 ≤ best ∧ best ≤ 191 ∧ ∀ i, 0 ≤ i → i < x → start n count (i + 1) - start n count i ≤ best)
    (Int.le_refl 0) (by omega) (by simp only [intMax]; omega)
    (⟨by omega, by omega, fun i hi hi' => by omega⟩ : (0 : Int) ≤ 0 ∧ _) hround
  have hfirst := hall 0 (by omega) (by omega)
  have hlow := (start_succ hc hle hlong 0).1
  refine ⟨longest, ?_, by omega, h₁, fun i hi hi' => hall i hi (by omega)⟩
  rw [tileMax, hcount]
  exact hloop

/-- The tiles of an axis lie one after the other, from its first pixel to its last, and are no longer
than `da3d_tile_max` says. -/
def AxisTiled (n : Int) : Prop :=
  ∃ (count longest : Int) (start : Int → Int), tileCount n = some count ∧ tileMax n = some longest ∧
    (∀ i, 0 ≤ i → i ≤ count → tileStart n count i = some (start i)) ∧ start 0 = 0 ∧ start count = n ∧
    (∀ i, 0 ≤ i → i < count → 1 ≤ start (i + 1) - start i ∧ start (i + 1) - start i ≤ longest) ∧
    ∀ x, 0 ≤ x → x < n → ∃! i, (0 ≤ i ∧ i < count) ∧ start i ≤ x ∧ x < start (i + 1)

theorem axisTiled (hn : 1 ≤ n) (hmax : n < 2 ^ 30) : AxisTiled n := by
  obtain ⟨count, hcount, hc, hle, hlong⟩ := tileCount_spec hn hmax
  obtain ⟨longest, hlongest, -, -, hall⟩ := tileMax_spec hn hmax hcount
  refine ⟨count, longest, start n count, hcount, hlongest, fun i hi hi' => tileStart_eq hn hmax hc hi hi',
    start_zero, start_count hc, fun i hi hi' => ⟨(start_succ hc hle hlong i).1, hall i hi hi'⟩, fun x hx hx' => ?_⟩
  have hle_iff := fun i => @start_le_iff n count i x hn hc
  have h₀ : 0 ≤ ((x + 1) * count - 1) / n := by
    rw [← hle_iff, start_zero]
    exact hx
  have hcountq : ¬count ≤ ((x + 1) * count - 1) / n := by
    rw [← hle_iff, start_count hc]
    omega
  refine ⟨((x + 1) * count - 1) / n, ⟨⟨h₀, by omega⟩, (hle_iff _).mpr (Int.le_refl _), ?_⟩, ?_⟩
  · have := mt (hle_iff (((x + 1) * count - 1) / n + 1)).mp (by omega)
    omega
  · rintro i ⟨-, hi, hi'⟩
    have h₁ := (hle_iff i).mp hi
    have h₂ := mt (hle_iff (i + 1)).mpr (by omega)
    omega

end Axis

/-! ## Cells of a buffer -/

section Raster

variable {width height row col row' col' : Int}

theorem raster_mem (hrow : 0 ≤ row) (hrow' : row < height) (hcol : 0 ≤ col) (hcol' : col < width) :
    0 ≤ row * width + col ∧ row * width + col < width * height := by
  have hlow := Int.mul_nonneg hrow (show 0 ≤ width by omega)
  have hhigh := Int.mul_le_mul_of_nonneg_right (show row + 1 ≤ height by omega) (show 0 ≤ width by omega)
  rw [Int.add_mul, Int.one_mul, Int.mul_comm height] at hhigh
  omega

theorem raster_inj (hcol : 0 ≤ col) (hcol' : col < width) (hcol₂ : 0 ≤ col') (hcol₂' : col' < width) :
    row * width + col = row' * width + col' ↔ row = row' ∧ col = col' := by
  constructor
  · intro h
    have hrows : ∀ r c, 0 ≤ c → c < width → (r * width + c) / width = r := by
      intro r c hc hc'
      rw [Int.add_comm, Int.add_mul_ediv_right _ _ (by omega), Int.ediv_eq_zero_of_lt hc hc', Int.zero_add]
    have hrow : row = row' := by
      rw [← hrows row col hcol hcol', ← hrows row' col' hcol₂ hcol₂', h]
    subst hrow
    exact ⟨rfl, by omega⟩
  · rintro ⟨rfl, rfl⟩
    rfl

variable {α : Type} {b : Cells α} {i : Int}

theorem Cells.put_spec (hi : 0 ≤ i) (hi' : i < b.size) (v : α) :
    ∃ b', b.put i v = some b' ∧ b'.size = b.size ∧ b'.get i = some v ∧ ∀ j, j ≠ i → b'.get j = b.get j := by
  refine ⟨_, if_pos ⟨hi, hi'⟩, rfl, ?_, fun j hj => ?_⟩
  · rw [Cells.get, if_pos ⟨hi, hi'⟩]
    exact Function.update_self i (some v) b.data
  · simp only [Cells.get, Function.update_of_ne hj]

end Raster

/-! ## Filling a tile -/

/-- A tile of the grid and the buffer it is filled into. -/
structure TileIn (height width tileH tileW r0 r1 c0 c1 : Int) : Prop where
  rows : 0 ≤ r0 ∧ r0 < r1 ∧ r1 ≤ height
  cols : 0 ≤ c0 ∧ c0 < c1 ∧ c1 ≤ width
  high : r1 - r0 + 63 ≤ tileH
  wide : c1 - c0 + 63 ≤ tileW
  heightInt : height < 2 ^ 30
  widthInt : width < 2 ^ 30

section Fill

variable {α : Type} {img : Plane α} {tileH tileW r0 r1 c0 c1 row col : Int} {t t' : Cells α}

/-- The sources of the cells of a set. -/
def FilledOn (img : Plane α) (tileH tileW r0 c0 : Int) (t : Cells α) (cells : Int → Int → Prop) : Prop :=
  t.size = tileW * tileH ∧ ∀ row col, cells row col → t.get (row * tileW + col) =
    some (img.pixel (reflect img.height (r0 - 31 + row)) (reflect img.width (c0 - 31 + col)))

variable (ht : TileIn img.height img.width tileH tileW r0 r1 c0 c1)

include ht

theorem sourceRow_eq (hrow : 0 ≤ row) (hrow' : row < r1 - r0 + 63) :
    symmetric (r0 - 31 + row) img.height = some (reflect img.height (r0 - 31 + row)) := by
  have := ht.rows
  have := ht.heightInt
  exact symmetric_eq (by omega) (by omega) (by omega) (by omega)

theorem sourceCol_eq (hcol : 0 ≤ col) (hcol' : col < c1 - c0 + 63) :
    symmetric (c0 - 31 + col) img.width = some (reflect img.width (c0 - 31 + col)) := by
  have := ht.cols
  have := ht.widthInt
  exact symmetric_eq (by omega) (by omega) (by omega) (by omega)

theorem fillCell_spec {cells : Int → Int → Prop} (hrow : 0 ≤ row) (hrow' : row < r1 - r0 + 63)
    (hcol : 0 ≤ col) (hcol' : col < c1 - c0 + 63) (hcells : ∀ r c, cells r c → 0 ≤ c ∧ c < tileW)
    (hfilled : FilledOn img tileH tileW r0 c0 t cells) :
    ∃ t', fillCell img tileW c0 row (reflect img.height (r0 - 31 + row)) t col = some t' ∧
      FilledOn img tileH tileW r0 c0 t' fun r c => cells r c ∨ r = row ∧ c = col := by
  have hsub : sub c0 31 = some (c0 - 31) := by
    have := ht.cols
    have := ht.widthInt
    exact ofInt_eq (by omega) (by omega)
  have hadd : add (c0 - 31) col = some (c0 - 31 + col) := by
    have := ht.cols
    have := ht.widthInt
    exact ofInt_eq (by omega) (by omega)
  obtain ⟨hy, hy'⟩ := @reflect_mem img.height (r0 - 31 + row) (by have := ht.rows; omega)
  obtain ⟨hx, hx'⟩ := @reflect_mem img.width (c0 - 31 + col) (by have := ht.cols; omega)
  have hget : img.get (reflect img.height (r0 - 31 + row)) (reflect img.width (c0 - 31 + col)) =
      some (img.pixel (reflect img.height (r0 - 31 + row)) (reflect img.width (c0 - 31 + col))) :=
    if_pos ⟨⟨hy, hy'⟩, hx, hx'⟩
  have hhigh := ht.high
  have hwide := ht.wide
  obtain ⟨hmem, hmem'⟩ := @raster_mem tileW tileH row col hrow (by omega) hcol (by omega)
  obtain ⟨t', hput, hsize, hnew, hold⟩ := t.put_spec hmem (hfilled.1.symm ▸ hmem')
    (img.pixel (reflect img.height (r0 - 31 + row)) (reflect img.width (c0 - 31 + col)))
  refine ⟨t', ?_, hsize.trans hfilled.1, fun r c h => ?_⟩
  · simp only [fillCell, hsub, hadd, sourceCol_eq ht hcol hcol', hget, Option.bind_eq_bind, Option.bind_some]
    exact hput
  · by_cases hcase : r = row ∧ c = col
    · obtain ⟨rfl, rfl⟩ := hcase
      exact hnew
    · have hcell := h.resolve_right hcase
      obtain ⟨hc, hc'⟩ := hcells r c hcell
      have hne : r * tileW + c ≠ row * tileW + col := fun heq =>
        hcase ((raster_inj hc hc' hcol (by omega)).mp heq)
      rw [hold _ hne]
      exact hfilled.2 r c hcell

theorem fillRow_spec (hrow : 0 ≤ row) (hrow' : row < r1 - r0 + 63)
    (hfilled : FilledOn img tileH tileW r0 c0 t fun r c => (0 ≤ r ∧ r < row) ∧ 0 ≤ c ∧ c < c1 - c0 + 63) :
    ∃ t', fillRow img tileW r0 c0 c1 t row = some t' ∧
      FilledOn img tileH tileW r0 c0 t' fun r c => (0 ≤ r ∧ r < row + 1) ∧ 0 ≤ c ∧ c < c1 - c0 + 63 := by
  have hwide := ht.wide
  have hcols := ht.cols
  have hsub : sub r0 31 = some (r0 - 31) := by
    have := ht.rows
    have := ht.heightInt
    exact ofInt_eq (by omega) (by omega)
  have hadd : add (r0 - 31) row = some (r0 - 31 + row) := by
    have := ht.rows
    have := ht.heightInt
    exact ofInt_eq (by omega) (by omega)
  have hround : ∀ t col, 0 ≤ col → col ≤ c1 - c0 + 63 - 1 →
      FilledOn img tileH tileW r0 c0 t (fun r c => ((0 ≤ r ∧ r < row) ∧ 0 ≤ c ∧ c < c1 - c0 + 63) ∨
        r = row ∧ 0 ≤ c ∧ c < col) →
      ∃ t', fillCell img tileW c0 row (reflect img.height (r0 - 31 + row)) t col = some t' ∧
        FilledOn img tileH tileW r0 c0 t' fun r c => ((0 ≤ r ∧ r < row) ∧ 0 ≤ c ∧ c < c1 - c0 + 63) ∨
          r = row ∧ 0 ≤ c ∧ c < col + 1 := by
    intro t col hcol hcol' h
    obtain ⟨t', hcell, hsize, hcells⟩ := fillCell_spec ht hrow hrow' hcol (by omega)
      (fun r c hrc => by omega) h
    exact ⟨t', hcell, hsize, fun r c hrc => hcells r c (by omega)⟩
  obtain ⟨t', hloop, hsize, hcells⟩ := upTo_stages _ (Int.le_refl 0) (by omega)
    (by have := ht.widthInt; simp only [intMax]; omega)
    ⟨hfilled.1, fun r c hrc => hfilled.2 r c (by omega)⟩ hround
  refine ⟨t', ?_, hsize, fun r c hrc => hcells r c (by omega)⟩
  simp only [fillRow, hsub, hadd, sourceRow_eq ht hrow hrow', Option.bind_eq_bind, Option.bind_some]
  exact hloop

/-- The cells of a filled tile hold the plane, mirrored at its borders. -/
theorem fillTile_spec (hsize : t.size = tileW * tileH) :
    ∃ t', fillTile img tileW r0 r1 c0 c1 t = some t' ∧
      FilledOn img tileH tileW r0 c0 t' fun r c => (0 ≤ r ∧ r < r1 - r0 + 63) ∧ 0 ≤ c ∧ c < c1 - c0 + 63 := by
  have hrows := ht.rows
  obtain ⟨t', hloop, hsize', hcells⟩ := upTo_stages
    (fun row t => FilledOn img tileH tileW r0 c0 t fun r c => (0 ≤ r ∧ r < row) ∧ 0 ≤ c ∧ c < c1 - c0 + 63)
    (Int.le_refl 0) (show 0 ≤ r1 - r0 + 63 - 1 + 1 by omega)
    (by have := ht.heightInt; simp only [intMax]; omega) ⟨hsize, fun r c hrc => by omega⟩
    fun t row hrow hrow' h => fillRow_spec ht hrow (by omega) h
  exact ⟨t', hloop, hsize', fun r c hrc => hcells r c (by omega)⟩

/-- The patch at a core pixel, read from the filled tile: the pixel stands at `(31, 31)`. -/
theorem patch_spec (hsize : t.size = tileW * tileH) {pr pc i : Int} (hpr : 0 ≤ pr) (hpr' : pr < r1 - r0)
    (hpc : 0 ≤ pc) (hpc' : pc < c1 - c0) (hi : 0 ≤ i) (hi' : i < 64 * 64)
    (hfill : fillTile img tileW r0 r1 c0 c1 t = some t') :
    t'.get (patchIndex tileW pr pc i) = some (img.pixel (reflect img.height (r0 + pr + (i / 64 - 31)))
      (reflect img.width (c0 + pc + (i % 64 - 31)))) := by
  obtain ⟨_, hfill', hsize', hcells⟩ := fillTile_spec ht hsize
  obtain rfl := Option.some.inj (hfill.symm.trans hfill')
  have hindex : patchIndex tileW pr pc i = (pr + i / 64) * tileW + (pc + i % 64) := by
    rw [patchIndex, Int.add_mul]
    omega
  rw [hindex, hcells _ _ (by omega), show r0 - 31 + (pr + i / 64) = r0 + pr + (i / 64 - 31) by omega,
    show c0 - 31 + (pc + i % 64) = c0 + pc + (i % 64 - 31) by omega]

end Fill

/-! ## Adding its sums -/

section Back

variable {α : Type} [Add α] {height width tileH tileW r0 r1 c0 c1 row col : Int} {t num num' : Cells α}
  {sums plane plane' : Int → Int → α}

/-- A plane of sums, written out. -/
def Holding (height width : Int) (num : Cells α) (plane : Int → Int → α) : Prop :=
  num.size = width * height ∧ ∀ y x, 0 ≤ y → y < height → 0 ≤ x → x < width →
    num.get (y * width + x) = some (plane y x)

/-- The sums of a tile, where it was filled. -/
def Summed (tileW r0 r1 c0 c1 : Int) (t : Cells α) (sums : Int → Int → α) : Prop :=
  ∀ row col, 0 ≤ row → row < r1 - r0 + 63 → 0 ≤ col → col < c1 - c0 + 63 →
    t.get (row * tileW + col) = some (sums row col)

/-- The pixels of a plane that a tile reaches. -/
def Reached (r0 r1 c0 c1 y x : Int) : Prop := (r0 - 31 ≤ y ∧ y < r1 + 32) ∧ c0 - 31 ≤ x ∧ x < c1 + 32

instance (r0 r1 c0 c1 y x : Int) : Decidable (Reached r0 r1 c0 c1 y x) := inferInstanceAs (Decidable (_ ∧ _))

/-- The plane with the sums of the tile added to what it reaches, where `cells` says so. -/
def addedOn (sums plane : Int → Int → α) (r0 c0 : Int) (cells : Int → Int → Bool) (y x : Int) : α :=
  if cells y x then plane y x + sums (y - (r0 - 31)) (x - (c0 - 31)) else plane y x

theorem Holding.sets {cells cells' : Int → Int → Bool}
    (h : Holding height width num (addedOn sums plane r0 c0 cells))
    (hsets : ∀ y x, 0 ≤ y → y < height → 0 ≤ x → x < width → cells y x = cells' y x) :
    Holding height width num (addedOn sums plane r0 c0 cells') := by
  refine ⟨h.1, fun y x hy hy' hx hx' => ?_⟩
  rw [h.2 y x hy hy' hx hx', addedOn, addedOn, hsets y x hy hy' hx hx']

variable (ht : TileIn height width tileH tileW r0 r1 c0 c1) (hsums : Summed tileW r0 r1 c0 c1 t sums)

include ht hsums

theorem addCell_spec {cells : Int → Int → Bool} (hrow : 0 ≤ row ∧ row < height) (hcol : 0 ≤ col ∧ col < width)
    (hreach : Reached r0 r1 c0 c1 row col) (hnew : cells row col = false)
    (hnum : Holding height width num (addedOn sums plane r0 c0 cells)) :
    ∃ num', addCell tileW c0 width (row - (r0 - 31)) row t num col = some num' ∧
      Holding height width num'
        (addedOn sums plane r0 c0 fun y x => cells y x || decide (y = row ∧ x = col)) := by
  have hints := ht.widthInt
  have hsub : sub c0 31 = some (c0 - 31) := by
    have := ht.cols
    exact ofInt_eq (by omega) (by omega)
  have hsub' : sub col (c0 - 31) = some (col - (c0 - 31)) := by
    have := ht.cols
    exact ofInt_eq (by omega) (by omega)
  obtain ⟨⟨hr, hr'⟩, hc, hc'⟩ := hreach
  have hread := hsums (row - (r0 - 31)) (col - (c0 - 31)) (by omega) (by omega) (by omega) (by omega)
  have hold := hnum.2 row col hrow.1 hrow.2 hcol.1 hcol.2
  rw [addedOn, hnew, if_neg Bool.false_ne_true] at hold
  obtain ⟨hmem, hmem'⟩ := @raster_mem width height row col hrow.1 hrow.2 hcol.1 hcol.2
  obtain ⟨num', hput, hsize, hwritten, hother⟩ := num.put_spec hmem (hnum.1.symm ▸ hmem')
    (plane row col + sums (row - (r0 - 31)) (col - (c0 - 31)))
  refine ⟨num', ?_, hsize.trans hnum.1, fun y x hy hy' hx hx' => ?_⟩
  · simp only [addCell, hsub, hsub', hread, hold, Option.bind_eq_bind, Option.bind_some]
    exact hput
  · by_cases hcase : y = row ∧ x = col
    · obtain ⟨rfl, rfl⟩ := hcase
      rw [hwritten, addedOn, if_pos (by simp)]
    · have hne : y * width + x ≠ row * width + col := fun heq =>
        hcase ((raster_inj hx hx' hcol.1 hcol.2).mp heq)
      rw [hother _ hne, hnum.2 y x hy hy' hx hx', addedOn, addedOn, decide_eq_false hcase, Bool.or_false]

theorem addRow_spec (hrow : 0 ≤ row ∧ row < height) (hreach : r0 - 31 ≤ row ∧ row < r1 + 32)
    (hnum : Holding height width num
      (addedOn sums plane r0 c0 fun y x => decide (Reached r0 r1 c0 c1 y x ∧ y < row))) :
    ∃ num', addRow tileW r0 c0 c1 width t num row = some num' ∧ Holding height width num'
      (addedOn sums plane r0 c0 fun y x => decide (Reached r0 r1 c0 c1 y x ∧ y < row + 1)) := by
  have hints := ht.widthInt
  have hints' := ht.heightInt
  have hrows := ht.rows
  have hcols := ht.cols
  have hsub : sub r0 31 = some (r0 - 31) := ofInt_eq (by omega) (by omega)
  have hsub' : sub row (r0 - 31) = some (row - (r0 - 31)) := ofInt_eq (by omega) (by omega)
  have hsub₂ : sub c0 31 = some (c0 - 31) := ofInt_eq (by omega) (by omega)
  have hadd : add c1 32 = some (c1 + 32) := ofInt_eq (by omega) (by omega)
  have hround : ∀ num col, max 0 (c0 - 31) ≤ col → col ≤ min width (c1 + 32) - 1 →
      Holding height width num (addedOn sums plane r0 c0 fun y x =>
        decide (Reached r0 r1 c0 c1 y x ∧ (y < row ∨ y = row ∧ x < col))) →
      ∃ num', addCell tileW c0 width (row - (r0 - 31)) row t num col = some num' ∧
        Holding height width num' (addedOn sums plane r0 c0 fun y x =>
          decide (Reached r0 r1 c0 c1 y x ∧ (y < row ∨ y = row ∧ x < col + 1))) := by
    intro num col hcol hcol' h
    have hcell : Reached r0 r1 c0 c1 row col := ⟨hreach, by omega⟩
    obtain ⟨num', hadded, h'⟩ := addCell_spec ht hsums hrow (by omega) hcell (decide_eq_false (by omega)) h
    refine ⟨num', hadded, h'.sets fun y x _ _ _ _ => ?_⟩
    rw [← Bool.decide_or, decide_eq_decide]
    constructor
    · rintro (h | ⟨rfl, rfl⟩)
      · exact ⟨h.1, by omega⟩
      · exact ⟨hcell, by omega⟩
    · intro h
      by_cases hcase : y = row ∧ x = col
      · exact .inr hcase
      · exact .inl ⟨h.1, by omega⟩
  obtain ⟨num', hloop, h'⟩ := upTo_stages _ (by omega) (by omega) (by simp only [intMax]; omega)
    (hnum.sets fun y x _ _ hx _ => decide_eq_decide.mpr ⟨fun h => ⟨h.1, .inl h.2⟩, fun h => ⟨h.1, by
      have := h.1.2
      omega⟩⟩) hround
  refine ⟨num', ?_, h'.sets fun y x _ _ _ hx => decide_eq_decide.mpr ⟨fun h => ⟨h.1, by omega⟩, fun h => ⟨h.1, by
    have := h.1.2
    omega⟩⟩⟩
  simp only [addRow, hsub, hsub', hsub₂, hadd, Option.bind_eq_bind, Option.bind_some]
  exact hloop

/-- The plane gains, at every pixel the tile reaches, the sum in the cell of that pixel. -/
theorem addTile_spec (hnum : Holding height width num plane) :
    ∃ num', addTile tileW r0 r1 c0 c1 height width t num = some num' ∧ Holding height width num'
      (addedOn sums plane r0 c0 fun y x => decide (Reached r0 r1 c0 c1 y x)) := by
  have hints := ht.heightInt
  have hrows := ht.rows
  have hsub : sub r0 31 = some (r0 - 31) := ofInt_eq (by omega) (by omega)
  have hadd : add r1 32 = some (r1 + 32) := ofInt_eq (by omega) (by omega)
  have hstart : Holding height width num (addedOn sums plane r0 c0 fun y x =>
      decide (Reached r0 r1 c0 c1 y x ∧ y < max 0 (r0 - 31))) := by
    refine ⟨hnum.1, fun y x hy hy' hx hx' => ?_⟩
    rw [hnum.2 y x hy hy' hx hx', addedOn, decide_eq_false fun h => by have := h.1.1; omega]
    rfl
  obtain ⟨num', hloop, h'⟩ := upTo_stages
    (fun row num => Holding height width num (addedOn sums plane r0 c0 fun y x =>
      decide (Reached r0 r1 c0 c1 y x ∧ y < row)))
    (show 0 ≤ max 0 (r0 - 31) by omega) (show max 0 (r0 - 31) ≤ min height (r1 + 32) - 1 + 1 by omega)
    (by simp only [intMax]; omega) hstart
    fun num row hrow hrow' h => addRow_spec ht hsums (by omega) (by omega) h
  refine ⟨num', ?_, h'.sets fun y x _ hy _ _ => decide_eq_decide.mpr ⟨fun h => h.1, fun h => ⟨h, by
    have := h.1
    omega⟩⟩⟩
  simp only [addTile, hsub, hadd, Option.bind_eq_bind, Option.bind_some]
  exact hloop

end Back

/-! ## The buffers -/

section Buffers

variable {pad : Nat → Nat} {p : Nat} {sizes : List Nat} {h h' w w' : Nat}

theorem le_align16 (n : Nat) : n ≤ align16 n := by
  rw [align16]
  omega

/-- Buffers taken one after the other lie one after the other. -/
theorem takes_spec (hpad : ∀ n, n ≤ pad n) :
    (takes pad p sizes).Pairwise (fun a b => a.1 + a.2 ≤ b.1) ∧
      ∀ b ∈ takes pad p sizes, p ≤ b.1 ∧ b.1 + b.2 ≤ p + (sizes.map pad).sum := by
  induction sizes generalizing p with
  | nil => exact ⟨List.Pairwise.nil, fun b hb => absurd hb List.not_mem_nil⟩
  | cons n sizes ih =>
    obtain ⟨hpairs, hall⟩ := @ih (p + pad n)
    have hn := hpad n
    rw [takes, List.map_cons, List.sum_cons]
    refine ⟨List.pairwise_cons.mpr ⟨fun b hb => ?_, hpairs⟩, fun b hb => ?_⟩
    · have := (hall b hb).1
      omega
    · rcases List.mem_cons.mp hb with rfl | hb
      · exact ⟨Nat.le_refl p, by omega⟩
      · have := hall b hb
        omega

theorem nextPow2_mono (hh : 1 ≤ h) (hle : h ≤ h') (hmax : h' ≤ 2 ^ 32) : nextPow2 h ≤ nextPow2 h' := by
  rw [nextPow2_eq (by omega) hh, nextPow2_eq hmax (by omega)]
  exact Nat.pow_le_pow_right (by decide) (Nat.size_le_size (by omega))

theorem side_mono {n n' : Nat} (hle : n ≤ n') (l : Nat) : side n l ≤ side n' l := by
  induction l with
  | zero => exact hle
  | succ l ih =>
    simp only [side, Nat.shiftRight_eq_div_pow, Nat.shiftLeft_eq]
    omega

/-- The storage of the largest core holds the map of every other. -/
theorem weightMapFloats_mono (hh : 1 ≤ h) (hle : h ≤ h') (hmax : h' ≤ 2 ^ 32) (hw : 1 ≤ w) (hle' : w ≤ w')
    (hmax' : w' ≤ 2 ^ 32) : weightMapFloats h w ≤ weightMapFloats h' w' := by
  have hlevels : levelCount h w ≤ levelCount h' w' := by
    simp only [levelCount, numberOfBits_eq]
    exact max_le_max (Nat.add_le_add_right (Nat.size_le_size (by omega)) 1)
      (Nat.add_le_add_right (Nat.size_le_size (by omega)) 1)
  have hlevel : ∀ l, align16 (side (nextPow2 h) l * side (nextPow2 w) l) ≤
      align16 (side (nextPow2 h') l * side (nextPow2 w') l) := by
    intro l
    have hmul := Nat.mul_le_mul (side_mono (nextPow2_mono hh hle hmax) l) (side_mono (nextPow2_mono hw hle' hmax') l)
    simp only [align16]
    omega
  simp only [weightMapFloats, levelSizes, List.map_map]
  calc ((List.range (levelCount h w)).map _).sum
      ≤ ((List.range (levelCount h w)).map
          (align16 ∘ fun l => side (nextPow2 h') l * side (nextPow2 w') l)).sum :=
        List.sum_le_sum fun l _ => hlevel l
    _ ≤ _ := ((List.range_sublist.mpr hlevels).map _).sum_le_sum fun _ _ => Nat.zero_le _

theorem weightMapFloats_le : weightMapFloats 191 191 ≤ 2 ^ 17 := by decide

/-- What is taken is what `da3d_work_floats` counts, less the 16 of the alignment. -/
theorem workSizes_sum (plane tile map channels : Nat) :
    ((workSizes plane tile map channels).map align16).sum =
      (channels + 1) * align16 plane + (3 * channels + 1) * align16 tile + align16 map + align16 patchFloats := by
  have hflat : ∀ c, (((List.replicate c [tile, tile, tile]).flatten).map align16).sum = 3 * c * align16 tile := by
    intro c
    induction c with
    | zero => simp
    | succ c ih =>
      rw [List.replicate_succ, List.flatten_cons, List.map_append, List.sum_append, ih]
      simp only [List.map_cons, List.map_nil, List.sum_cons, List.sum_nil]
      rw [show 3 * (c + 1) = 3 * c + 3 by omega, Nat.add_mul]
      omega
  simp only [workSizes, List.map_append, List.sum_append, hflat, List.map_replicate,
    List.sum_replicate_nat, List.map_cons, List.map_nil, List.sum_cons, List.sum_nil, Nat.add_mul, Nat.one_mul,
    Nat.add_zero, Nat.add_assoc]

end Buffers

/-! ## The whole -/

/-- A tile of `Da3dDenoise`: every cell is filled from the plane mirrored at its borders, every patch
of a core pixel lies in the filled cells, and the sum that a pixel gains is that of its own cell. -/
structure TileSound (height width tileH tileW r0 r1 c0 c1 : Int) : Prop where
  filled : ∀ (α : Type) (img : Plane α), img.height = height → img.width = width →
    ∃ t, fillTile img tileW r0 r1 c0 c1 (Cells.empty (tileW * tileH)) = some t ∧
      (∀ row col, 0 ≤ row → row < r1 - r0 + 63 → 0 ≤ col → col < c1 - c0 + 63 →
        t.get (row * tileW + col) =
          some (img.pixel (reflect height (r0 - 31 + row)) (reflect width (c0 - 31 + col)))) ∧
      (∀ pr pc i, 0 ≤ pr → pr < r1 - r0 → 0 ≤ pc → pc < c1 - c0 → 0 ≤ i → i < 64 * 64 →
        t.get (patchIndex tileW pr pc i) = some (img.pixel (reflect height (r0 + pr + (i / 64 - 31)))
          (reflect width (c0 + pc + (i % 64 - 31))))) ∧
      ∀ y x, 0 ≤ y → y < height → 0 ≤ x → x < width → Reached r0 r1 c0 c1 y x →
        t.get ((y - (r0 - 31)) * tileW + (x - (c0 - 31))) = some (img.pixel y x)
  added : ∀ (α : Type) [Add α] (t num : Cells α) (sums plane : Int → Int → α),
    Summed tileW r0 r1 c0 c1 t sums → Holding height width num plane →
      ∃ num', addTile tileW r0 r1 c0 c1 height width t num = some num' ∧ Holding height width num' fun y x =>
        if Reached r0 r1 c0 c1 y x then plane y x + sums (y - (r0 - 31)) (x - (c0 - 31)) else plane y x

/-- The geometry of a plane: its grid, its mirrored sources, its tiles and its work buffer. -/
structure Geometry (height width : Int) (channels : Nat) : Prop where
  rows : AxisTiled height
  cols : AxisTiled width
  mirrored : ∀ n pos, n = height ∨ n = width → -2147483648 < pos → pos ≤ 2147483647 →
    symmetric pos n = some (reflect n pos) ∧ 0 ≤ reflect n pos ∧ reflect n pos < n
  tiles : ∀ rowsT colsT h w tr tc r0 r1 c0 c1, tileCount height = some rowsT → tileCount width = some colsT →
    tileMax height = some h → tileMax width = some w → 0 ≤ tr → tr < rowsT → 0 ≤ tc → tc < colsT →
    tileStart height rowsT tr = some r0 → tileStart height rowsT (tr + 1) = some r1 →
    tileStart width colsT tc = some c0 → tileStart width colsT (tc + 1) = some c1 →
      TileSound height width (h + 63) (w + 63) r0 r1 c0 c1 ∧
        weightMapFloats (r1 - r0).toNat (c1 - c0).toNat ≤ weightMapFloats h.toNat w.toNat
  buffers : ∃ total buffers, da3dWorkFloats width height channels = some total ∧ total < 2 ^ 64 ∧
    da3dTakes width height channels = some buffers ∧ buffers.Pairwise (fun a b => a.1 + a.2 ≤ b.1) ∧
      ∀ b ∈ buffers, b.1 + b.2 ≤ total
  patch : (takes id 0 patchArrays).Pairwise (fun a b => a.1 + a.2 ≤ b.1) ∧
    ∀ b ∈ takes id 0 patchArrays, b.1 + b.2 ≤ patchFloats

section Whole

variable {height width : Int} {channels : Nat}

theorem TileIn.sound {tileH tileW r0 r1 c0 c1 : Int} (ht : TileIn height width tileH tileW r0 r1 c0 c1) :
    TileSound height width tileH tileW r0 r1 c0 c1 := by
  have hrows := ht.rows
  have hcols := ht.cols
  refine ⟨?_, fun α _ t num sums plane hsums hnum => ?_⟩
  · rintro α img rfl rfl
    obtain ⟨t, hfill, -, hcells⟩ := fillTile_spec ht (t := Cells.empty (tileW * tileH)) rfl
    refine ⟨t, hfill, fun row col hr hr' hc hc' => hcells row col (by omega),
      fun pr pc i hpr hpr' hpc hpc' hi hi' => patch_spec ht rfl hpr hpr' hpc hpc' hi hi' hfill, ?_⟩
    intro y x hy hy' hx hx' ⟨hry, hrx⟩
    rw [hcells _ _ (by omega), show r0 - 31 + (y - (r0 - 31)) = y by omega,
      show c0 - 31 + (x - (c0 - 31)) = x by omega, reflect_self hy hy', reflect_self hx hx']
  · obtain ⟨num', hadded, hsize, hcells⟩ := addTile_spec ht hsums hnum
    refine ⟨num', hadded, hsize, fun y x hy hy' hx hx' => ?_⟩
    rw [hcells y x hy hy' hx hx', addedOn]
    simp only [decide_eq_true_eq]

theorem geometry (hh : 1 ≤ height) (hh' : height < 2 ^ 30) (hw : 1 ≤ width) (hw' : width < 2 ^ 30)
    (hchannels : channels = 1 ∨ channels = 3) : Geometry height width channels := by
  refine ⟨axisTiled hh hh', axisTiled hw hw', ?_, ?_, ?_, ?_⟩
  · rintro n pos (rfl | rfl) hpos hpos'
    · exact ⟨symmetric_eq hh hh' hpos hpos', reflect_mem hh⟩
    · exact ⟨symmetric_eq hw hw' hpos hpos', reflect_mem hw⟩
  · intro rowsT colsT h w tr tc r0 r1 c0 c1 hrowsT hcolsT hh₁ hw₁ htr htr' htc htc' hr0 hr1 hc0 hc1
    obtain ⟨_, hcount, hc, hle, hlong⟩ := tileCount_spec hh hh'
    obtain rfl := Option.some.inj (hrowsT.symm.trans hcount)
    obtain ⟨_, hcount', hc', hle', hlong'⟩ := tileCount_spec hw hw'
    obtain rfl := Option.some.inj (hcolsT.symm.trans hcount')
    obtain ⟨_, hmax, -, hmax', hall⟩ := tileMax_spec hh hh' hrowsT
    obtain rfl := Option.some.inj (hh₁.symm.trans hmax)
    obtain ⟨_, hmax₂, -, hmax₂', hall'⟩ := tileMax_spec hw hw' hcolsT
    obtain rfl := Option.some.inj (hw₁.symm.trans hmax₂)
    rw [tileStart_eq hh hh' hc (by omega) (by omega)] at hr0 hr1
    rw [tileStart_eq hw hw' hc' (by omega) (by omega)] at hc0 hc1
    obtain rfl := Option.some.inj hr0
    obtain rfl := Option.some.inj hr1
    obtain rfl := Option.some.inj hc0
    obtain rfl := Option.some.inj hc1
    have hr := start_mem hh hc htr (show tr ≤ rowsT by omega)
    have hr' := start_mem hh hc (show 0 ≤ tr + 1 by omega) (show tr + 1 ≤ rowsT by omega)
    have hc₀ := start_mem hw hc' htc (show tc ≤ colsT by omega)
    have hc₁ := start_mem hw hc' (show 0 ≤ tc + 1 by omega) (show tc + 1 ≤ colsT by omega)
    have hrow := start_succ hc hle hlong tr
    have hcol := start_succ hc' hle' hlong' tc
    have hrow' := hall tr htr htr'
    have hcol' := hall' tc htc htc'
    refine ⟨TileIn.sound ⟨by omega, by omega, by omega, by omega, hh', hw'⟩, ?_⟩
    exact weightMapFloats_mono (by omega) (by omega) (by omega) (by omega) (by omega) (by omega)
  · obtain ⟨rowsT, hrowsT, -⟩ := tileCount_spec hh hh'
    obtain ⟨colsT, hcolsT, -⟩ := tileCount_spec hw hw'
    obtain ⟨h, hmax, hh₁, hh₂, -⟩ := tileMax_spec hh hh' hrowsT
    obtain ⟨w, hmax', hw₁, hw₂, -⟩ := tileMax_spec hw hw' hcolsT
    have hsum := workSizes_sum (width.toNat * height.toNat) ((w + 63).toNat * (h + 63).toNat)
      (weightMapFloats h.toNat w.toNat) channels
    obtain ⟨hpairs, hends⟩ := @takes_spec align16 0 (workSizes (width.toNat * height.toNat)
      ((w + 63).toNat * (h + 63).toNat) (weightMapFloats h.toNat w.toNat) channels) le_align16
    refine ⟨_, _, by rw [da3dWorkFloats, hmax', hmax]; rfl, ?_, by rw [da3dTakes, hmax', hmax]; rfl, hpairs,
      fun b hb => ?_⟩
    · have hplane : width.toNat * height.toNat ≤ 2 ^ 30 * 2 ^ 30 := Nat.mul_le_mul (by omega) (by omega)
      have htile : (w + 63).toNat * (h + 63).toNat ≤ 254 * 254 := Nat.mul_le_mul (by omega) (by omega)
      have hmap : weightMapFloats h.toNat w.toNat ≤ 2 ^ 17 :=
        (weightMapFloats_mono (by omega) (by omega) (by omega) (by omega) (by omega) (by omega)).trans
          weightMapFloats_le
      simp only [align16, patchFloats]
      rcases hchannels with rfl | rfl <;> omega
    · have := (hends b hb).2
      omega
  · obtain ⟨hpairs, hends⟩ := @takes_spec id 0 patchArrays fun n => Nat.le_refl n
    refine ⟨hpairs, fun b hb => (hends b hb).2.trans ?_⟩
    decide

theorem geometry_small : Geometry 3 5 1 :=
  geometry (by decide) (by decide) (by decide) (by decide) (.inl rfl)

/-- Twice this width is no `int`. -/
theorem not_geometry_wide : ¬Geometry 1 (2 ^ 30) 1 := by
  intro h
  have hmirrored := (h.mirrored (2 ^ 30) 0 (.inr rfl) (by decide) (by decide)).1
  rw [symmetric_of_le (Int.le_refl _)] at hmirrored
  cases hmirrored

end Whole

end NssFactory.Da3d
