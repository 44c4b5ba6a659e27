import Mathlib.Data.Fin.VecNotation
import Mathlib.Data.Fintype.Basic
import Mathlib.Tactic.FinCases
import NssFactory.Cpu.TwscBatch
import NssFactory.Lib.Numerals
import NssFactory.Lib.Vectors

/-!
# SVDs of eight columns in lanes

`SvdEconomy8Batch` decomposes matrices of `m` rows and eight columns, one in each lane: it packs
them scaled (`pack`), factors them by Householder reflectors, rotates the columns of the triangle
until no lane rotates, sorts each lane and replays the reflectors.

The arithmetic is left open. The loops are written over a `Machine`, whose instance for vectors is
the code and whose instance for values (`item`) says what one matrix alone gives.
-/

namespace NssFactory.Cpu.SvdBatch8

open Vectors

attribute [local instance] Numerals.four

def kN : Nat := 8

def kSvdBatch8MaxM : Nat := 64

/-- `detail::kSvdRankFloorSquared` -/
def kSvdRankFloorSquared : ℚ := 1 / 10 ^ 14

/-- `detail::kJacobiCorrelationTolerance` -/
def kJacobiCorrelationTolerance : ℚ := 1 / 10 ^ 6

/-! ## The loops -/

section Loops

variable {E M : Type} (a : Machine E M)

/-- A loop of `MulAdd(x, y, sum)`. -/
def dot (rows : List Nat) (x y : Nat → E) : E :=
  rows.foldl (fun s row => a.mulAdd (x row) (y row) s) a.zero

/-- What the QR writes. -/
structure Factor (E : Type) where
  tall : Mat E
  reflectors : Mat E
  rsoa : Mat E
  beta : Nat → E

/-- A reflector applied to the columns from `first` on, the rows outside: every column has its own sum. -/
def applyRows (k m first : Nat) (reflectors : Mat E) (b : E) (tall : Mat E) : Mat E :=
  let dots := (indices k m).foldl
    (fun (dots : Nat → E) row col => a.mulAdd (reflectors row k) (tall row col) (dots col)) fun _ => a.zero
  mapBlock k m first kN (fun row col value => a.negMulAdd (a.mul b (dots col)) (reflectors row k) value) tall

def norm (norm2 : E) : E := a.sqrt (a.max norm2 a.zero)

def sign (x0 : E) : E := a.select (a.ge x0 a.zero) a.one (a.lit (-1))

/-- The first element of a reflector. -/
def head (norm2 x0 : E) : E := a.add x0 (a.mul (sign a x0) (norm a norm2))

def usable (valid : M) (norm2 vtv : E) : M :=
  a.and (a.and valid (a.ge (norm a norm2) (a.lit (1 / 10 ^ 20)))) (a.ge vtv (a.lit (1 / 10 ^ 30)))

def betaOf (valid : M) (norm2 vtv : E) : E :=
  let safeVtv := a.select (usable a valid norm2 vtv) vtv a.one
  a.select (usable a valid norm2 vtv) (a.div (a.lit 2) safeVtv) a.zero

def diagonal (valid : M) (norm2 vtv x0 : E) : E :=
  a.select (usable a valid norm2 vtv) (a.neg (a.mul (sign a x0) (norm a norm2))) a.zero

/-- Column `k` of the QR. -/
def householder (valid : M) (m : Nat) (s : Factor E) (k : Nat) : Factor E :=
  let norm2 := dot a (indices k m) (fun row => s.tall row k) fun row => s.tall row k
  let x0 := s.tall k k
  let reflectors := mapBlock k m k (k + 1)
    (fun row _ _ => if row = k then head a norm2 x0 else s.tall row k) s.reflectors
  let vtv := dot a (indices k m) (fun row => reflectors row k) fun row => reflectors row k
  let b := betaOf a valid norm2 vtv
  let tall := applyRows a k m k reflectors b s.tall
  let rsoa := put s.rsoa k k (diagonal a valid norm2 vtv x0)
  ⟨tall, reflectors, mapBlock k (k + 1) (k + 1) kN (fun _ col _ => tall k col) rsoa, Function.update s.beta k b⟩

def norms (ju : Mat E) (col : Nat) : E := dot a (List.range kN) (fun row => ju row col) fun row => ju row col

/-- The columns that are rotated. -/
structure Columns (E M : Type) where
  ju : Mat E
  jv : Mat E
  norms : Nat → E
  active : M

/-- The seven rounds of four pairs. -/
def pairs : List (Nat × Nat) :=
  [(0, 1), (2, 3), (4, 5), (6, 7), (0, 2), (1, 3), (4, 6), (5, 7), (0, 3), (1, 2), (4, 7), (5, 6),
    (0, 4), (1, 5), (2, 6), (3, 7), (0, 5), (1, 4), (2, 7), (3, 6), (0, 6), (1, 7), (2, 4), (3, 5),
    (0, 7), (1, 6), (2, 5), (3, 4)]

/-- Columns `p` and `q` turned where `rotate` holds. -/
def rotateColumns (rotate : M) (cs sn : E) (p q : Nat) (j : Mat E) : Mat E := fun row col =>
  let up := j row p
  let uq := j row q
  if row < kN ∧ col = p then a.select rotate (a.negMulAdd sn uq (a.mul cs up)) up
  else if row < kN ∧ col = q then a.select rotate (a.mulAdd sn up (a.mul cs uq)) uq
  else j row col

/-- A rotation and the norms after it. -/
structure Turn (E M : Type) where
  rotate : M
  cs : E
  sn : E
  np : E
  nq : E

def turn (active : M) (rankFloor app aqq apq : E) : Turn E M :=
  let threshold := a.mul (a.lit kJacobiCorrelationTolerance) (a.sqrt (a.max (a.mul app aqq) a.zero))
  let rotate := a.and (a.and active (a.gt (a.abs apq) threshold)) (a.and (a.gt app rankFloor) (a.gt aqq rankFloor))
  let delta := a.mul (a.sub aqq app) (a.lit (1 / 2))
  let angleScale := a.select rotate (a.max (a.abs delta) (a.abs apq)) a.one
  let x := a.div delta angleScale
  let y := a.div (a.select rotate apq a.one) angleScale
  let t := a.div y (a.add x (a.copySign (a.sqrt (a.mulAdd x x (a.mul y y))) x))
  let cs := a.div a.one (a.sqrt (a.mulAdd t t a.one))
  let sn := a.mul cs t
  let c2 := a.mul cs cs
  let s2 := a.mul sn sn
  let cs2 := a.mul (a.lit 2) (a.mul cs sn)
  ⟨rotate, cs, sn, a.max (a.add (a.sub (a.mul c2 app) (a.mul cs2 apq)) (a.mul s2 aqq)) a.zero,
    a.max (a.add (a.add (a.mul s2 app) (a.mul cs2 apq)) (a.mul c2 aqq)) a.zero⟩

/-- A pair of a sweep; the mask has the lanes rotated so far. -/
def jacobiPair (needVt : Bool) (rankFloor : E) (s : Columns E M × M) (pq : Nat × Nat) : Columns E M × M :=
  let p := pq.1
  let q := pq.2
  let apq := dot a (List.range kN) (fun row => s.1.ju row p) fun row => s.1.ju row q
  let t := turn a s.1.active rankFloor (s.1.norms p) (s.1.norms q) apq
  (⟨rotateColumns a t.rotate t.cs t.sn p q s.1.ju,
    if needVt then rotateColumns a t.rotate t.cs t.sn p q s.1.jv else s.1.jv,
    Function.update (Function.update s.1.norms p (a.select t.rotate t.np (s.1.norms p))) q
      (a.select t.rotate t.nq (s.1.norms q)), s.1.active⟩, a.or s.2 t.rotate)

/-- The norms are computed anew, and the lanes without a rotation leave. -/
def finishSweep (s : Columns E M × M) : Columns E M :=
  ⟨s.1.ju, s.1.jv, norms a s.1.ju, a.and s.1.active s.2⟩

/-- A sweep from no lane rotated. -/
def sweep (needVt : Bool) (none : M) (rankFloor : E) (s : Columns E M) : Columns E M :=
  finishSweep a (pairs.foldl (jacobiPair a needVt rankFloor) (s, none))

/-- The rotations start from the triangle. -/
def start (needVt : Bool) (valid : M) (rsoa : Mat E) : Columns E M :=
  let ju := rsoa
  ⟨ju, fun row col => if needVt ∧ row = col then a.one else a.zero, norms a ju, valid⟩

def rankFloor (norms : Nat → E) : E :=
  a.mul ((List.range kN).foldl (fun s col => a.max s (norms col)) a.zero) (a.lit kSvdRankFloorSquared)

def singular (rankFloor : E) (norms : Nat → E) (col : Nat) : E :=
  a.select (a.gt (norms col) rankFloor) (a.sqrt (a.max (norms col) a.zero)) a.zero

/-- The columns of the triangle's left factor. -/
def normalized (valid : M) (ssoa : Nat → E) (ju : Mat E) : Mat E := fun row col =>
  let nonzero := a.and valid (a.gt (ssoa col) (a.lit (1 / 10 ^ 20)))
  let inv := a.select nonzero (a.div a.one (a.select nonzero (ssoa col) a.one)) a.one
  a.select nonzero (a.mul (ju row col) inv) a.zero

/-- A reflector applied to one column after the other. -/
def applyColumns (k m : Nat) (reflectors : Mat E) (b : E) (tall : Mat E) : Mat E :=
  (List.range kN).foldl (fun tall col =>
    let factor := a.mul b (dot a (indices k m) (fun row => reflectors row k) fun row => tall row col)
    mapBlock k m col (col + 1) (fun row _ value => a.negMulAdd factor (reflectors row k) value) tall) tall

/-- The left factor below zeros, and the reflectors on it, last one first; `NSS_SVD_QREPLAY_ROW_MAJOR`
has the rows outside. -/
def replay (rowMajor : Bool) (m : Nat) (s : Factor E) (rsoa : Mat E) : Mat E :=
  (List.range kN).reverse.foldl (fun tall k =>
    if rowMajor then applyRows a k m 0 s.reflectors (s.beta k) tall
    else applyColumns a k m s.reflectors (s.beta k) tall)
    fun row col => if row < kN ∧ col < kN then rsoa row col else a.zero

end Loops

/-! ## One lane -/

/-- The bits of floats. -/
structure Bits (D : Type) where
  magnitude : D → Nat
  float : Nat → D
  frexp : D → Int
  ldexp : D → Int → D

section Lane

variable {D : Type} (o : Floats D) (x : Bits D)

/-- `detail::svd_input_scale` -/
def svdInputScale (maximum : Nat) : D :=
  let magnitude := x.float maximum
  if o.eq magnitude o.zero || (o.le (o.lit (1 / 2 ^ 8)) magnitude && o.le magnitude (o.lit (2 ^ 8))) then o.one
  else x.ldexp o.one (max (-120) (min 120 (-(x.frexp magnitude))))

/-- An element times the scale of its matrix. -/
def scaled (scale value : D) : D := if o.eq scale o.one then value else o.mul value scale

def infinite : Nat := 0x7f800000

/-- `std::max` over the magnitudes, column by column. -/
def maximum (m : Nat) (A : Mat D) : Nat :=
  (List.range kN).foldl (fun s col => (List.range m).foldl (fun s row => max s (x.magnitude (A row col))) s) 0

/-- Singular values and columns of a lane. -/
structure Sorted (D : Type) where
  ssoa : Nat → D
  rsoa : Mat D
  vsoa : Mat D

def swapColumns (j : Mat D) (c best : Nat) : Mat D :=
  fun row col => if row < kN then j row (if col = c then best else if col = best then c else col) else j row col

def selectColumn (s : Sorted D) (c : Nat) : Sorted D :=
  let best := (indices (c + 1) kN).foldl (fun best col => if o.lt (s.ssoa best) (s.ssoa col) then col else best) c
  if best = c then s
  else ⟨Function.update (Function.update s.ssoa c (s.ssoa best)) best (s.ssoa c),
    swapColumns s.rsoa c best, swapColumns s.vsoa c best⟩

def sortColumns (s : Sorted D) : Sorted D := (List.range kN).foldl (selectColumn o) s

/-- What is returned for an item. -/
structure Out (D : Type) where
  S : Nat → D
  U : Mat D
  Vt : Mat D

/-- What is common to the lanes of a vector and to one lane: QR, rotations and norms. -/
structure Decomposed (E M : Type) where
  factor : Factor E
  columns : Columns E M
  floor : E

/-- A matrix alone. -/
def decomposeItem (needVt : Bool) (m : Nat) (tall : Mat D) : Decomposed D Bool :=
  let a := o.machine
  let s := (List.range kN).foldl (householder a true m) ⟨tall, fun _ _ => o.zero, fun _ _ => o.zero, fun _ => o.zero⟩
  let floor := rankFloor a (norms a s.rsoa)
  ⟨s, sweeps (fun c => (sweep a needVt false floor c, (sweep a needVt false floor c).active)) 32
    (start a needVt true s.rsoa), floor⟩

def sortedItem (d : Decomposed D Bool) : Sorted D :=
  let ssoa := singular o.machine d.floor d.columns.norms
  sortColumns o ⟨ssoa, normalized o.machine true ssoa d.columns.ju, d.columns.jv⟩

/-- The scale of a matrix. -/
def scaleOf (m : Nat) (A : Mat D) : D := svdInputScale o x (maximum x m A)

/-- All that the item alone gives. -/
def item (m : Nat) (A : Mat D) : Out D :=
  let d := decomposeItem o true m fun row col => scaled o (scaleOf o x m A) (A row col)
  let s := sortedItem o d
  { S := fun col => o.div (s.ssoa col) (scaleOf o x m A)
    U := replay o.machine false m d.factor s.rsoa
    Vt := fun row col => s.vsoa col row }

end Lane

/-! ## A chunk -/

/-- `kBatchLanes`, `HWY_MAX_BYTES >= 16` and `NSS_SVD_QREPLAY_ROW_MAJOR`, and what is asked for. -/
structure Build where
  batchLanes : Nat
  wide : Bool
  rowMajor : Bool
  needVt : Bool
  needU : Bool
  quads : 4 ∣ batchLanes
  some : needVt = true ∨ needU = true

section Chunk

variable {D : Type} (o : Floats D) (x : Bits D) (b : Build) (N m : Nat)

/-! ### Packing -/

/-- `InterleaveLower` and `InterleaveUpper` of floats. -/
def interleaveLower (y z : Fin 4 → D) : Fin 4 → D := ![y 0, z 0, y 1, z 1]

def interleaveUpper (y z : Fin 4 → D) : Fin 4 → D := ![y 2, z 2, y 3, z 3]

/-- The same of pairs of floats. -/
def interleavePairsLower (y z : Fin 4 → D) : Fin 4 → D := ![y 0, y 1, z 0, z 1]

def interleavePairsUpper (y z : Fin 4 → D) : Fin 4 → D := ![y 2, y 3, z 2, z 3]

/-- `Transpose4x4` -/
def transpose4x4 (v : Fin 4 → Fin 4 → D) : Fin 4 → Fin 4 → D :=
  let ab0 := interleaveLower (v 0) (v 1)
  let ab1 := interleaveUpper (v 0) (v 1)
  let ce0 := interleaveLower (v 2) (v 3)
  let ce1 := interleaveUpper (v 2) (v 3)
  ![interleavePairsLower ab0 ce0, interleavePairsUpper ab0 ce0, interleavePairsLower ab1 ce1,
    interleavePairsUpper ab1 ce1]

/-- The storage `tall`, of each lane, and `scales`. -/
abbrev Packed (D : Type) := (Nat → Mat D) × (Nat → D)

/-- Lane `lane` checked and scaled by the greatest of its magnitudes. -/
def scaleLane (lane largest : Nat) (s : Packed D) : Packed D × Bool :=
  if infinite ≤ largest then (s, false)
  else
    let scale := svdInputScale o x largest
    ((Function.update s.1 lane (mapBlock 0 m 0 kN (fun _ _ value => scaled o scale value) (s.1 lane)),
      Function.update s.2 lane scale), true)

/-- Four rows of four lanes, and the maxima so far. -/
def packBlock (A : Nat → Mat D) (lane0 col : Nat) (s : (Nat → Mat D) × (Fin 4 → Nat)) (row : Nat) :
    (Nat → Mat D) × (Fin 4 → Nat) :=
  let r := transpose4x4 fun i j => A (lane0 + i) (row + j) col
  (fun lane row' col' =>
    if (lane0 ≤ lane ∧ lane < lane0 + 4) ∧ (row ≤ row' ∧ row' < row + 4) ∧ col' = col then
      r (Fin.ofNat 4 (row' - row)) (Fin.ofNat 4 (lane - lane0))
    else s.1 lane row' col',
    (List.finRange 4).foldl (fun vmax j i => max (vmax i) (x.magnitude (r j i))) s.2)

/-- Four lanes transposed, with their maxima. -/
def quad (A : Nat → Mat D) (lane0 : Nat) (t : (Nat → Mat D) × (Fin 4 → Nat)) : (Nat → Mat D) × (Fin 4 → Nat) :=
  (List.range kN).foldl (fun t col => (Tiles.starts 4 0 kSvdBatch8MaxM).foldl (packBlock x A lane0 col) t) t

/-- Four lanes of a full chunk. -/
def packQuad (A : Nat → Mat D) (s : Packed D) (lane0 : Nat) : Packed D × Bool :=
  let t := quad x A lane0 (s.1, fun _ => 0)
  untilFalse (fun s (i : Fin 4) => scaleLane o x m (lane0 + i) (t.2 i) s) (List.finRange 4) (t.1, s.2)

/-- One lane of a partial chunk. -/
def packLane (A : Nat → Mat D) (s : Packed D) (lane : Nat) : Packed D × Bool :=
  scaleLane o x m lane (maximum x m (A lane))
    (Function.update s.1 lane (mapBlock 0 m 0 kN (fun row col _ => A lane row col) (s.1 lane)), s.2)

def packedHot (count : Nat) : Bool := decide (count = b.batchLanes ∧ m = kSvdBatch8MaxM)

/-- A full chunk goes into storage that is not cleared. -/
def pack (A : Nat → Mat D) (count : Nat) (storage : Packed D) : Packed D × Bool :=
  let tall := if packedHot b m count then storage.1 else fun _ _ _ => o.zero
  if packedHot b m count ∧ b.wide then
    untilFalse (packQuad o x m A) (Tiles.starts 4 0 b.batchLanes) (tall, storage.2)
  else untilFalse (packLane o x m A) (List.range count) (tall, storage.2)

/-! ### The decomposition -/

def decomposeLanes (count : Nat) (tall reflectors : Mat (Fin N → D)) : Decomposed (Fin N → D) (Fin N → Bool) :=
  let a := o.lanes N
  let valid : Fin N → Bool := fun l => decide (l.val < count)
  let s := (List.range kN).foldl (householder a valid m) ⟨tall, reflectors, fun _ _ => a.zero, fun _ => a.zero⟩
  let floor := rankFloor a (norms a s.rsoa)
  let round := sweep a b.needVt (fun _ => false) floor
  ⟨s, sweeps (fun c => (round c, (List.finRange N).any (round c).active)) 32 (start a b.needVt valid s.rsoa), floor⟩

/-- A lane below `count` sorted. -/
def sortedLanes (count : Nat) (d : Decomposed (Fin N → D) (Fin N → Bool)) (l : Fin N) : Sorted D :=
  let a := o.lanes N
  let ssoa := singular a d.floor d.columns.norms
  let valid : Fin N → Bool := fun l => decide (l.val < count)
  let s : Sorted D := ⟨fun col => ssoa col l, lane l (normalized a valid ssoa d.columns.ju), lane l d.columns.jv⟩
  if l.val < count then sortColumns o s else s

/-! ### The results -/

/-- A value of `S`, scaled back. -/
def writeS (item col : Nat) (value : D) (out : Nat → Out D) : (Nat → Out D) × Bool :=
  (Function.update out item { out item with S := Function.update (out item).S col value },
    decide (x.magnitude value < infinite))

def writeU (item col : Nat) (tall : Mat D) (out : Nat → Out D) : Nat → Out D :=
  Function.update out item { out item with U := mapBlock 0 m col (col + 1) (fun row c _ => tall row c) (out item).U }

def writeVt (item : Nat) (vsoa : Mat D) (out : Nat → Out D) : Nat → Out D :=
  Function.update out item
    { out item with Vt := mapBlock 0 kN 0 kN (fun row col _ => vsoa col row) (out item).Vt }

/-- Four rows of a column of `U` in four lanes. -/
def writeBlock (first : Nat) (tall : Nat → Mat D) (lane0 col : Nat) (out : Nat → Out D) (row : Nat) : Nat → Out D :=
  let r := transpose4x4 fun j i => tall (lane0 + i) (row + j) col
  (List.finRange 4).foldl (fun out (i : Fin 4) => Function.update out (first + (lane0 + i))
    { out (first + (lane0 + i)) with
      U := mapBlock row (row + 4) col (col + 1) (fun row' _ _ => r i (Fin.ofNat 4 (row' - row)))
        (out (first + (lane0 + i))).U }) out

/-- `U` of all lanes of a full vector. -/
def writeBlocks (first : Nat) (tall : Nat → Mat D) (out : Nat → Out D) : Nat → Out D :=
  (Tiles.starts 4 0 b.batchLanes).foldl (fun out lane0 => (List.range kN).foldl (fun out col =>
    (Tiles.starts 4 0 m).foldl (writeBlock first tall lane0 col) out) out) out

/-- The lanes that have an item. -/
def used (count : Nat) : List (Fin N) := (List.finRange N).filter fun l => decide (l.val < count)

/-- The values of `S` of one lane, each with what comes after it. -/
def writeValues (item : Nat) (s : Sorted D) (scale : D) (also : Nat → (Nat → Out D) → Nat → Out D)
    (out : Nat → Out D) : (Nat → Out D) × Bool :=
  untilFalse (fun out col =>
    let r := writeS x item col (o.div (s.ssoa col) scale) out
    if r.2 then (also col r.1, true) else r) (List.range kN) out

/-- A step after which the loop goes on. -/
def after (r : (Nat → Out D) × Bool) (f : (Nat → Out D) → Nat → Out D) : (Nat → Out D) × Bool :=
  if r.2 then (f r.1, true) else r

/-- `SvdChunk` on the items from `first` on; `storage` and `junk` are what the arrays hold before. -/
def svdChunk (A : Nat → Mat D) (count first : Nat) (storage : Packed D) (junk : Mat (Fin N → D))
    (out : Nat → Out D) : (Nat → Out D) × Bool :=
  let packed := pack o x b m A count storage
  if packed.2 then
    let scales := packed.1.2
    let d := decomposeLanes o b N m count (fun row col l => packed.1.1 l row col)
      (if packedHot b m count then junk else fun _ _ _ => o.zero)
    let s := sortedLanes o N count d
    let vt (l : Fin N) (out : Nat → Out D) := if b.needVt then writeVt (first + l) (s l).vsoa out else out
    if b.needU then
      let tall := replay (o.lanes N) b.rowMajor m d.factor fun row col l => (s l).rsoa row col
      if b.wide ∧ count = b.batchLanes ∧ m % 4 = 0 then
        after (untilFalse (fun out (l : Fin N) =>
            writeValues o x (first + l) (s l) (scales l) (fun _ out => out) out) (used N count) out)
          fun out => (used N count).foldl (fun out l => vt l out) (writeBlocks b m first
            (fun l row col => if h : l < N then tall row col ⟨l, h⟩ else o.zero) out)
      else
        untilFalse (fun out (l : Fin N) => after (writeValues o x (first + l) (s l) (scales l)
          (fun col out => writeU m (first + l) col (lane l tall) out) out) (vt l)) (used N count) out
    else
      untilFalse (fun out (l : Fin N) => after (writeValues o x (first + l) (s l) (scales l)
        (fun _ out => out) out) (writeVt (first + l) (s l).vsoa)) (used N count) out
  else (out, false)

/-- `SvdEconomy8Batch` and its variants; false where they return -1. -/
def svdEconomy8Batch (A : Nat → Mat D) (count : Nat) (storage : Nat → Packed D) (junk : Nat → Mat (Fin N → D))
    (out : Nat → Out D) : (Nat → Out D) × Bool :=
  if m < kN ∨ kSvdBatch8MaxM < m ∨ count < 1 then (out, false)
  else untilFalse (fun out first => svdChunk o x b N m (fun l => A (first + l)) (min N (count - first)) first
    (storage first) (junk first) out) ((List.range ((count + N - 1) / N)).map fun c => c * N) out

end Chunk

/-! ## One lane of the loops -/

section Lanes

variable {D : Type} {o : Floats D} {N m k : Nat} {l : Fin N}

theorem dot_lane {rows : List Nat} {X Y : Nat → Fin N → D} {x y : Nat → D} (hx : ∀ row ∈ rows, X row l = x row)
    (hy : ∀ row ∈ rows, Y row l = y row) : dot (o.lanes N) rows X Y l = dot o.machine rows x y := by
  have h : ∀ first : Fin N → D, rows.foldl (fun s row => (o.lanes N).mulAdd (X row) (Y row) s) first l =
      rows.foldl (fun s row => o.mulAdd (x row) (y row) s) (first l) := by
    induction rows with
    | nil => exact fun _ => rfl
    | cons row rows ih =>
      intro first
      have hrest := ih (fun r hr => hx r (List.mem_cons_of_mem _ hr)) fun r hr => hy r (List.mem_cons_of_mem _ hr)
      rw [List.foldl_cons, List.foldl_cons, hrest, ← hx row List.mem_cons_self, ← hy row List.mem_cons_self]
      rfl
  exact h _

/-- The columns of `applyRows` are those of loops with the columns outside. -/
theorem applyRows_eq {E M : Type} (a : Machine E M) {first : Nat} {reflectors : Mat E} {b : E} {tall : Mat E} :
    applyRows a k m first reflectors b tall = mapBlock k m first kN (fun row col value => a.negMulAdd
      (a.mul b (dot a (indices k m) (fun row => reflectors row k) fun row => tall row col)) (reflectors row k) value)
      tall := by
  have hdots : ∀ col, (indices k m).foldl (fun (dots : Nat → E) row col =>
      a.mulAdd (reflectors row k) (tall row col) (dots col)) (fun _ => a.zero) col =
      dot a (indices k m) (fun row => reflectors row k) fun row => tall row col :=
    fun col => Tiles.foldl_at (fun col s row => a.mulAdd (reflectors row k) (tall row col) s) _ (indices k m) col
  unfold applyRows
  simp only [hdots]

theorem applyColumns_eq {E M : Type} (a : Machine E M) {reflectors : Mat E} {b : E} {tall : Mat E} :
    applyColumns a k m reflectors b tall = applyRows a k m 0 reflectors b tall := by
  rw [applyRows_eq]
  unfold applyColumns
  -- after `n` columns, those are replaced
  have h : ∀ n, (List.range n).foldl (fun tall col => mapBlock k m col (col + 1) (fun row _ value => a.negMulAdd
      (a.mul b (dot a (indices k m) (fun row => reflectors row k) fun row => tall row col)) (reflectors row k) value)
      tall) tall = mapBlock k m 0 n (fun row col value => a.negMulAdd (a.mul b (dot a (indices k m)
        (fun row => reflectors row k) fun row => tall row col)) (reflectors row k) value) tall := by
    intro n
    induction n with
    | zero =>
      funext row col
      exact (if_neg (by omega)).symm
    | succ n ih =>
      rw [List.range_succ, List.foldl_append, ih, List.foldl_cons, List.foldl_nil]
      have hcolumn : ∀ row, mapBlock k m 0 n (fun row col value => a.negMulAdd (a.mul b (dot a (indices k m)
          (fun row => reflectors row k) fun row => tall row col)) (reflectors row k) value) tall row n = tall row n :=
        fun row => if_neg (by omega)
      simp only [hcolumn]
      funext row col
      unfold mapBlock
      by_cases hcol : col = n
      · subst hcol
        by_cases hrow : k ≤ row ∧ row < m
        · rw [if_pos (by omega), if_neg (by omega), if_pos (by omega)]
        · rw [if_neg (by omega), if_neg (by omega), if_neg (by omega)]
      · rw [if_neg (by omega)]
        congr 1
        simp only [eq_iff_iff]
        omega
  exact h kN

/-- Both orders of a replay are one. -/
theorem replay_eq {E M : Type} (a : Machine E M) (rowMajor : Bool) {s : Factor E} {rsoa : Mat E} :
    replay a rowMajor m s rsoa = replay a true m s rsoa := by
  unfold replay
  cases rowMajor with
  | true => rfl
  | false => simp [applyColumns_eq]

/-- What both arrays hold in the rows of the matrix. -/
def Agree (m : Nat) (l : Fin N) (X : Mat (Fin N → D)) (x : Mat D) : Prop :=
  ∀ row < m, ∀ col < kN, X row col l = x row col

theorem applyRows_lane {first : Nat} {R : Mat (Fin N → D)} {r : Mat D} {B : Fin N → D} {X : Mat (Fin N → D)}
    {x : Mat D} (hr : ∀ row < m, k ≤ row → R row k l = r row k) (hx : Agree m l X x) :
    Agree m l (applyRows (o.lanes N) k m first R B X) (applyRows o.machine k m first r (B l) x) := by
  intro row hrow col hcol
  rw [applyRows_eq, applyRows_eq]
  unfold mapBlock
  by_cases hin : k ≤ row ∧ row < m ∧ first ≤ col ∧ col < kN
  · have hdot : dot (o.lanes N) (indices k m) (fun row => R row k) (fun row => X row col) l =
        dot o.machine (indices k m) (fun row => r row k) fun row => x row col :=
      dot_lane (fun i hi => hr i (mem_indices.mp hi).2 (mem_indices.mp hi).1)
        fun i hi => hx i (mem_indices.mp hi).2 col hcol
    rw [if_pos hin, if_pos hin]
    dsimp only
    rw [← hdot, ← hr row hrow hin.1, ← hx row hrow col hcol]
    rfl
  · rw [if_neg hin, if_neg hin]
    exact hx row hrow col hcol

/-- The QR of a lane and that of its matrix alone, before column `k`. -/
structure Same (m : Nat) (l : Fin N) (S : Factor (Fin N → D)) (s : Factor D) (k : Nat) : Prop where
  tall : Agree m l S.tall s.tall
  reflectors : ∀ row < m, ∀ c < k, c ≤ row → S.reflectors row c l = s.reflectors row c
  rsoa : lane l S.rsoa = s.rsoa
  beta : (fun c => S.beta c l) = s.beta

section Masks

variable {valid : Fin N → Bool} {norm2 vtv x0 : Fin N → D}

theorem usable_lane (hvalid : valid l = true) :
    usable (o.lanes N) valid norm2 vtv l = usable o.machine true (norm2 l) (vtv l) := by
  change ((valid l && _) && _) = ((true && _) && _)
  rw [hvalid]
  rfl

theorem betaOf_lane (hvalid : valid l = true) :
    betaOf (o.lanes N) valid norm2 vtv l = betaOf o.machine true (norm2 l) (vtv l) := by
  unfold betaOf
  rw [← usable_lane hvalid]
  rfl

theorem diagonal_lane (hvalid : valid l = true) :
    diagonal (o.lanes N) valid norm2 vtv x0 l = diagonal o.machine true (norm2 l) (vtv l) (x0 l) := by
  unfold diagonal
  rw [← usable_lane hvalid]
  rfl

end Masks

theorem householder_same {valid : Fin N → Bool} (hvalid : valid l = true) {S : Factor (Fin N → D)} {s : Factor D}
    (hk : k < kN) (hkm : k < m) (h : Same m l S s k) :
    Same m l (householder (o.lanes N) valid m S k) (householder o.machine true m s k) (k + 1) := by
  have hnorm2 : dot (o.lanes N) (indices k m) (fun row => S.tall row k) (fun row => S.tall row k) l =
      dot o.machine (indices k m) (fun row => s.tall row k) fun row => s.tall row k :=
    dot_lane (fun row hrow => h.tall row (mem_indices.mp hrow).2 k hk)
      fun row hrow => h.tall row (mem_indices.mp hrow).2 k hk
  have hx0 : S.tall k k l = s.tall k k := h.tall k hkm k hk
  unfold householder
  dsimp only
  generalize dot (o.lanes N) (indices k m) (fun row => S.tall row k) (fun row => S.tall row k) = norm2 at hnorm2 ⊢
  rw [← hnorm2, ← hx0]
  have hnew : ∀ row < m, k ≤ row → mapBlock k m k (k + 1) (fun row _ _ =>
        if row = k then head (o.lanes N) norm2 (S.tall k k) else S.tall row k) S.reflectors row k l =
      mapBlock k m k (k + 1) (fun row _ _ =>
        if row = k then head o.machine (norm2 l) (S.tall k k l) else s.tall row k) s.reflectors row k := by
    intro row hrow hle
    have hin : k ≤ row ∧ row < m ∧ k ≤ k ∧ k < k + 1 := by omega
    unfold mapBlock
    rw [if_pos hin, if_pos hin]
    dsimp only
    split
    · rfl
    · exact h.tall row hrow k hk
  have hold : ∀ row < m, ∀ c < k, c ≤ row → mapBlock k m k (k + 1) (fun row _ _ =>
        if row = k then head (o.lanes N) norm2 (S.tall k k) else S.tall row k) S.reflectors row c l =
      mapBlock k m k (k + 1) (fun row _ _ =>
        if row = k then head o.machine (norm2 l) (S.tall k k l) else s.tall row k) s.reflectors row c := by
    intro row hrow c hc hle
    have hout : ¬(k ≤ row ∧ row < m ∧ k ≤ c ∧ c < k + 1) := by omega
    unfold mapBlock
    rw [if_neg hout, if_neg hout]
    exact h.reflectors row hrow c hc hle
  generalize mapBlock k m k (k + 1) (fun row _ _ => if row = k then head (o.lanes N) norm2 (S.tall k k)
    else S.tall row k) S.reflectors = R at hnew hold ⊢
  generalize mapBlock k m k (k + 1) (fun row _ _ => if row = k then head o.machine (norm2 l) (S.tall k k l)
    else s.tall row k) s.reflectors = r at hnew hold ⊢
  have hvtv : dot (o.lanes N) (indices k m) (fun row => R row k) (fun row => R row k) l =
      dot o.machine (indices k m) (fun row => r row k) fun row => r row k :=
    dot_lane (fun row hrow => hnew row (mem_indices.mp hrow).2 (mem_indices.mp hrow).1)
      fun row hrow => hnew row (mem_indices.mp hrow).2 (mem_indices.mp hrow).1
  generalize dot (o.lanes N) (indices k m) (fun row => R row k) (fun row => R row k) = vtv at hvtv ⊢
  rw [← hvtv, ← betaOf_lane hvalid, ← diagonal_lane hvalid]
  generalize betaOf (o.lanes N) valid norm2 vtv = b
  generalize diagonal (o.lanes N) valid norm2 vtv (S.tall k k) = d
  have htall : Agree m l (applyRows (o.lanes N) k m k R b S.tall) (applyRows o.machine k m k r (b l) s.tall) :=
    applyRows_lane hnew h.tall
  refine ⟨htall, fun row hrow c hc hle => ?_, ?_, ?_⟩
  · by_cases hck : c = k
    · subst hck
      exact hnew row hrow hle
    · exact hold row hrow c (by omega) hle
  · have hput : lane l (put S.rsoa k k d) = put s.rsoa k k (d l) := by rw [lane_put, h.rsoa]
    funext row col
    rw [← hput]
    by_cases hin : k ≤ row ∧ row < k + 1 ∧ k + 1 ≤ col ∧ col < kN
    · simp only [lane, mapBlock, if_pos hin]
      exact htall k hkm col hin.2.2.2
    · simp only [lane, mapBlock, if_neg hin]
  · funext c
    rw [← h.beta]
    by_cases hck : c = k
    · subst hck
      simp
    · simp [hck]

theorem factor_same {valid : Fin N → Bool} (hvalid : valid l = true) (hm : kN ≤ m) {tall reflectors : Mat (Fin N → D)}
    {x : Mat D} (hx : Agree m l tall x) : Same m l ((List.range kN).foldl (householder (o.lanes N) valid m)
      ⟨tall, reflectors, fun _ _ => (o.lanes N).zero, fun _ => (o.lanes N).zero⟩)
      ((List.range kN).foldl (householder o.machine true m) ⟨x, fun _ _ => o.zero, fun _ _ => o.zero, fun _ => o.zero⟩)
      kN := by
  have h : ∀ n ≤ kN, Same m l ((List.range n).foldl (householder (o.lanes N) valid m)
      ⟨tall, reflectors, fun _ _ => (o.lanes N).zero, fun _ => (o.lanes N).zero⟩)
      ((List.range n).foldl (householder o.machine true m) ⟨x, fun _ _ => o.zero, fun _ _ => o.zero, fun _ => o.zero⟩)
      n := by
    intro n hn
    induction n with
    | zero => exact ⟨hx, fun _ _ _ hc => absurd hc (Nat.not_lt_zero _), rfl, rfl⟩
    | succ n ih =>
      rw [List.range_succ, List.foldl_append, List.foldl_append]
      exact householder_same hvalid (by omega) (by omega) (ih (by omega))
  exact h kN (Nat.le_refl _)

/-! ### The rotations -/

/-- A lane of the columns. -/
def read (l : Fin N) (c : Columns (Fin N → D) (Fin N → Bool)) : Columns D Bool :=
  ⟨lane l c.ju, lane l c.jv, fun col => c.norms col l, c.active l⟩

/-- A lane of a sweep. -/
def readMasked (l : Fin N) (s : Columns (Fin N → D) (Fin N → Bool) × (Fin N → Bool)) : Columns D Bool × Bool :=
  (read l s.1, s.2 l)

theorem norms_lane {ju : Mat (Fin N → D)} :
    (fun col => norms (o.lanes N) ju col l) = norms o.machine (lane l ju) := by
  funext col
  exact dot_lane (fun _ _ => rfl) fun _ _ => rfl

theorem rotateColumns_lane {rotate : Fin N → Bool} {cs sn : Fin N → D} {p q : Nat} {j : Mat (Fin N → D)} :
    lane l (rotateColumns (o.lanes N) rotate cs sn p q j) =
      rotateColumns o.machine (rotate l) (cs l) (sn l) p q (lane l j) := by
  funext row col
  unfold rotateColumns lane
  dsimp only
  by_cases hp : row < kN ∧ col = p
  · rw [if_pos hp, if_pos hp]
    rfl
  · rw [if_neg hp, if_neg hp]
    by_cases hq : row < kN ∧ col = q
    · rw [if_pos hq, if_pos hq]
      rfl
    · rw [if_neg hq, if_neg hq]

/-- A turn in a lane. -/
theorem turn_lane {active : Fin N → Bool} {floor app aqq apq : Fin N → D} :
    turn o.machine (active l) (floor l) (app l) (aqq l) (apq l) =
      (let t := turn (o.lanes N) active floor app aqq apq
      ⟨t.rotate l, t.cs l, t.sn l, t.np l, t.nq l⟩) := rfl

theorem jacobiPair_lane {needVt : Bool} {floor : Fin N → D}
    (s : Columns (Fin N → D) (Fin N → Bool) × (Fin N → Bool)) (pq : Nat × Nat) :
    readMasked l (jacobiPair (o.lanes N) needVt floor s pq) =
      jacobiPair o.machine needVt (floor l) (readMasked l s) pq := by
  have hdot : dot (o.lanes N) (List.range kN) (fun row => s.1.ju row pq.1) (fun row => s.1.ju row pq.2) l =
      dot o.machine (List.range kN) (fun row => lane l s.1.ju row pq.1) fun row => lane l s.1.ju row pq.2 :=
    dot_lane (fun _ _ => rfl) fun _ _ => rfl
  unfold jacobiPair readMasked read
  dsimp only
  rw [← hdot, turn_lane]
  generalize turn (o.lanes N) s.1.active floor (s.1.norms pq.1) (s.1.norms pq.2)
    (dot (o.lanes N) (List.range kN) (fun row => s.1.ju row pq.1) fun row => s.1.ju row pq.2) = t
  have hnorms : (fun col => Function.update (Function.update s.1.norms pq.1 ((o.lanes N).select t.rotate t.np
      (s.1.norms pq.1))) pq.2 ((o.lanes N).select t.rotate t.nq (s.1.norms pq.2)) col l) =
      Function.update (Function.update (fun col => s.1.norms col l) pq.1 (o.machine.select (t.rotate l) (t.np l)
        (s.1.norms pq.1 l))) pq.2 (o.machine.select (t.rotate l) (t.nq l) (s.1.norms pq.2 l)) := by
    funext col
    by_cases hq : col = pq.2
    · subst hq
      simp only [Function.update_self]
      rfl
    · simp only [Function.update_of_ne hq]
      by_cases hp : col = pq.1
      · subst hp
        simp only [Function.update_self]
        rfl
      · simp only [Function.update_of_ne hp]
  rw [rotateColumns_lane, hnorms]
  cases needVt with
  | true => simp only [if_true, rotateColumns_lane]; rfl
  | false => rfl

theorem finishSweep_lane (s : Columns (Fin N → D) (Fin N → Bool) × (Fin N → Bool)) :
    read l (finishSweep (o.lanes N) s) = finishSweep o.machine (readMasked l s) := by
  unfold finishSweep read readMasked
  dsimp only
  rw [norms_lane]
  rfl

theorem sweep_lane {needVt : Bool} {none : Fin N → Bool} {floor : Fin N → D}
    (c : Columns (Fin N → D) (Fin N → Bool)) :
    read l (sweep (o.lanes N) needVt none floor c) = sweep o.machine needVt (none l) (floor l) (read l c) := by
  have hpairs : readMasked l (pairs.foldl (jacobiPair (o.lanes N) needVt floor) (c, none)) =
      pairs.foldl (jacobiPair o.machine needVt (floor l)) (readMasked l (c, none)) :=
    foldl_read fun s pq _ => jacobiPair_lane s pq
  exact (finishSweep_lane _).trans (congrArg (finishSweep o.machine) hpairs)

/-! ### A lane that has converged -/

theorem rotateColumns_idle {cs sn : D} {p q : Nat} {j : Mat D} :
    rotateColumns o.machine false cs sn p q j = j := by
  funext row col
  unfold rotateColumns
  dsimp only
  split
  · rename_i h
    rw [h.2]
    rfl
  · split
    · rename_i h
      rw [h.2]
      rfl
    · rfl

/-- Without its lane, a matrix is not rotated. -/
theorem jacobiPair_idle {needVt rotated : Bool} {floor : D} {c : Columns D Bool} (h : c.active = false)
    (pq : Nat × Nat) : jacobiPair o.machine needVt floor (c, rotated) pq = (c, rotated) := by
  have hrotate : ∀ app aqq apq, (turn o.machine c.active floor app aqq apq).rotate = false := by
    intro app aqq apq
    rw [h]
    rfl
  have hnorms : ∀ np nq : D, Function.update (Function.update c.norms pq.1 (o.machine.select false np (c.norms pq.1)))
      pq.2 (o.machine.select false nq (c.norms pq.2)) = c.norms := by
    intro np nq
    have hp : o.machine.select false np (c.norms pq.1) = c.norms pq.1 := rfl
    have hq : o.machine.select false nq (c.norms pq.2) = c.norms pq.2 := rfl
    rw [hp, hq, Function.update_eq_self, Function.update_eq_self]
  unfold jacobiPair
  dsimp only
  rw [hrotate, hnorms, rotateColumns_idle, rotateColumns_idle]
  have hor : o.machine.or rotated false = rotated := Bool.or_false rotated
  rw [hor]
  cases needVt <;> rfl

theorem sweep_idle {needVt : Bool} {floor : D} {c : Columns D Bool} (h : c.active = false) :
    sweep o.machine needVt false floor c = ⟨c.ju, c.jv, norms o.machine c.ju, false⟩ := by
  have hpairs : pairs.foldl (jacobiPair o.machine needVt floor) (c, false) = (c, false) :=
    foldl_same fun pq _ => jacobiPair_idle h pq
  have hand : o.machine.and c.active false = false := Bool.and_false _
  unfold sweep finishSweep
  rw [hpairs]
  dsimp only
  rw [hand]

/-- All sweeps, in a lane. -/
theorem sweeps_read {needVt : Bool} {floor : Fin N → D} (n : Nat) (c : Columns (Fin N → D) (Fin N → Bool)) :
    read l (sweeps (fun c => (sweep (o.lanes N) needVt (fun _ => false) floor c,
      (List.finRange N).any (sweep (o.lanes N) needVt (fun _ => false) floor c).active)) n c) =
    sweeps (fun c => (sweep o.machine needVt false (floor l) c, (sweep o.machine needVt false (floor l) c).active)) n
      (read l c) := by
  refine sweeps_lane (fun c => sweep_lane c) (fun c h => ?_) (fun c h => ?_) n c
  · have hlane : (sweep (o.lanes N) needVt (fun _ => false) floor c).active l =
        (sweep o.machine needVt false (floor l) (read l c)).active := congrArg Columns.active (sweep_lane c)
    exact List.any_eq_true.mpr ⟨l, List.mem_finRange l, hlane.trans h⟩
  · have hactive : (sweep o.machine needVt false (floor l) c).active = false := h
    have hself : (⟨(sweep o.machine needVt false (floor l) c).ju, (sweep o.machine needVt false (floor l) c).jv,
        norms o.machine (sweep o.machine needVt false (floor l) c).ju,
        (sweep o.machine needVt false (floor l) c).active⟩ : Columns D Bool) =
          sweep o.machine needVt false (floor l) c := rfl
    have hidle : sweep o.machine needVt false (floor l) (sweep o.machine needVt false (floor l) c) =
        sweep o.machine needVt false (floor l) c :=
      (sweep_idle hactive).trans ((congrArg (fun b => (⟨_, _, _, b⟩ : Columns D Bool)) hactive.symm).trans hself)
    dsimp only
    rw [hidle, hactive]

/-! ### The factors of a lane -/

theorem start_lane {needVt : Bool} (valid : Fin N → Bool) (hvalid : valid l = true) {rsoa : Mat (Fin N → D)} :
    read l (start (o.lanes N) needVt valid rsoa) = start o.machine needVt true (lane l rsoa) := by
  have hjv : lane l (fun row col => if needVt ∧ row = col then (o.lanes N).one else (o.lanes N).zero) =
      fun row col => if needVt ∧ row = col then o.machine.one else o.machine.zero := by
    funext row col
    by_cases h : needVt ∧ row = col
    · simp only [lane, if_pos h]
      rfl
    · simp only [lane, if_neg h]
      rfl
  unfold start read
  dsimp only
  rw [norms_lane, hjv, hvalid]

theorem rankFloor_lane {norms : Nat → Fin N → D} :
    rankFloor (o.lanes N) norms l = rankFloor o.machine fun col => norms col l := by
  have h := Tiles.foldl_at (fun l s col => o.max s (norms col l)) (fun _ : Fin N => o.zero) (List.range kN) l
  exact congrArg (fun y => o.mul y (o.lit kSvdRankFloorSquared)) h

theorem normalized_lane (valid : Fin N → Bool) (hvalid : valid l = true) {ssoa : Nat → Fin N → D}
    {ju : Mat (Fin N → D)} : lane l (normalized (o.lanes N) valid ssoa ju) =
      normalized o.machine true (fun col => ssoa col l) (lane l ju) := by
  have hnonzero : ∀ col, (o.lanes N).and valid ((o.lanes N).gt (ssoa col) ((o.lanes N).lit (1 / 10 ^ 20))) l =
      o.machine.and true (o.machine.gt (ssoa col l) (o.machine.lit (1 / 10 ^ 20))) := by
    intro col
    change (valid l && _) = (true && _)
    rw [hvalid]
    rfl
  funext row col
  unfold normalized
  dsimp only
  rw [← hnonzero]
  rfl

/-- A lane has the QR of its matrix, its columns and its rank floor. -/
theorem decomposeLanes_read {b : Build} {count : Nat} (reflectors : Mat (Fin N → D)) (hm : kN ≤ m)
    (hl : l.val < count) {tall : Mat (Fin N → D)} {x : Mat D} (hx : Agree m l tall x) :
    Same m l (decomposeLanes o b N m count tall reflectors).factor (decomposeItem o b.needVt m x).factor kN ∧
      read l (decomposeLanes o b N m count tall reflectors).columns = (decomposeItem o b.needVt m x).columns ∧
      (decomposeLanes o b N m count tall reflectors).floor l = (decomposeItem o b.needVt m x).floor := by
  have hvalid : (fun l : Fin N => decide (l.val < count)) l = true := decide_eq_true hl
  have hsame : Same m l (decomposeLanes o b N m count tall reflectors).factor
      (decomposeItem o b.needVt m x).factor kN := factor_same hvalid hm hx
  have hstart : read l (start (o.lanes N) b.needVt (fun l => decide (l.val < count))
      (decomposeLanes o b N m count tall reflectors).factor.rsoa) = start o.machine b.needVt true
        (lane l (decomposeLanes o b N m count tall reflectors).factor.rsoa) :=
    start_lane (fun l => decide (l.val < count)) hvalid
  rw [hsame.rsoa] at hstart
  have hnorms : (fun col => norms (o.lanes N) (decomposeLanes o b N m count tall reflectors).factor.rsoa col l) =
      norms o.machine (decomposeItem o b.needVt m x).factor.rsoa := by rw [norms_lane, hsame.rsoa]
  have hfloor : (decomposeLanes o b N m count tall reflectors).floor l = (decomposeItem o b.needVt m x).floor :=
    rankFloor_lane.trans (congrArg (rankFloor o.machine) hnorms)
  have hcolumns : read l (decomposeLanes o b N m count tall reflectors).columns =
      sweeps (fun c => (sweep o.machine b.needVt false ((decomposeLanes o b N m count tall reflectors).floor l) c,
        (sweep o.machine b.needVt false ((decomposeLanes o b N m count tall reflectors).floor l) c).active)) 32
        (read l (start (o.lanes N) b.needVt (fun l => decide (l.val < count))
          (decomposeLanes o b N m count tall reflectors).factor.rsoa)) := sweeps_read 32 _
  refine ⟨hsame, ?_, hfloor⟩
  rw [hcolumns, hfloor, hstart]
  rfl

/-! ### Without the right vectors -/

/-- Everything but `jv`. -/
def forget (o : Floats D) (c : Columns D Bool) : Columns D Bool := { c with jv := fun _ _ => o.zero }

/-- Everything but `jv`, in a sweep. -/
def forgetMasked (o : Floats D) (s : Columns D Bool × Bool) : Columns D Bool × Bool := (forget o s.1, s.2)

theorem jacobiPair_forget {needVt : Bool} {floor : D} (s : Columns D Bool × Bool) (pq : Nat × Nat) :
    forgetMasked o (jacobiPair o.machine needVt floor s pq) =
      jacobiPair o.machine false floor (forgetMasked o s) pq := by
  unfold jacobiPair forgetMasked forget
  dsimp only
  rw [if_neg Bool.false_ne_true]

theorem pairs_forget {needVt : Bool} {floor : D} (pqs : List (Nat × Nat)) (s : Columns D Bool × Bool) :
    forgetMasked o (pqs.foldl (jacobiPair o.machine needVt floor) s) =
      pqs.foldl (jacobiPair o.machine false floor) (forgetMasked o s) :=
  foldl_read fun s pq _ => jacobiPair_forget s pq

theorem sweep_forget {needVt : Bool} {floor : D} (c : Columns D Bool) :
    forget o (sweep o.machine needVt false floor c) = sweep o.machine false false floor (forget o c) := by
  have hfinish : ∀ s : Columns D Bool × Bool,
      forget o (finishSweep o.machine s) = finishSweep o.machine (forgetMasked o s) := fun _ => rfl
  exact (hfinish _).trans (congrArg (finishSweep o.machine) (pairs_forget pairs (c, false)))

theorem sweeps_forget {needVt : Bool} {floor : D} (n : Nat) (c : Columns D Bool) :
    forget o (sweeps (fun c => (sweep o.machine needVt false floor c, (sweep o.machine needVt false floor c).active))
      n c) = sweeps (fun c => (sweep o.machine false false floor c, (sweep o.machine false false floor c).active)) n
        (forget o c) := by
  induction n generalizing c with
  | zero => rfl
  | succ n ih =>
    have hactive : (sweep o.machine needVt false floor c).active =
        (sweep o.machine false false floor (forget o c)).active := by
      rw [← sweep_forget]
      rfl
    rw [sweeps, sweeps, ← hactive]
    split
    · rw [ih, sweep_forget]
    · exact sweep_forget c

/-- The columns are the same with and without the right vectors. -/
theorem decomposeItem_forget (needVt : Bool) (x : Mat D) :
    forget o (decomposeItem o needVt m x).columns = forget o (decomposeItem o true m x).columns := by
  unfold decomposeItem
  dsimp only
  rw [sweeps_forget, sweeps_forget]
  rfl

/-- The sort does not look at the right vectors. -/
def forgetSorted (o : Floats D) (s : Sorted D) : Sorted D := { s with vsoa := fun _ _ => o.zero }

theorem sortColumns_forget (s : Sorted D) :
    forgetSorted o (sortColumns o s) = forgetSorted o (sortColumns o (forgetSorted o s)) := by
  have h : ∀ cols : List Nat, ∀ s s' : Sorted D, forgetSorted o s = forgetSorted o s' →
      forgetSorted o (cols.foldl (selectColumn o) s) = forgetSorted o (cols.foldl (selectColumn o) s') := by
    intro cols
    induction cols with
    | nil => exact fun _ _ hs => hs
    | cons col cols ih =>
      intro s s' hs
      refine ih _ _ ?_
      obtain ⟨ssoa, rsoa, vsoa⟩ := s
      obtain ⟨ssoa', rsoa', vsoa'⟩ := s'
      cases hs
      unfold selectColumn forgetSorted
      dsimp only
      split <;> rfl
  exact h (List.range kN) s (forgetSorted o s) rfl

/-- A lane below `count` is sorted as its matrix is. -/
theorem sortedLanes_read {count : Nat} (hl : l.val < count)
    {S : Decomposed (Fin N → D) (Fin N → Bool)} {d : Decomposed D Bool} (hcolumns : read l S.columns = d.columns)
    (hfloor : S.floor l = d.floor) : sortedLanes o N count S l = sortedItem o d := by
  have hvalid : (fun l : Fin N => decide (l.val < count)) l = true := decide_eq_true hl
  have hssoa : (fun col => singular (o.lanes N) S.floor S.columns.norms col l) =
      singular o.machine d.floor d.columns.norms := by
    rw [← hcolumns, ← hfloor]
    rfl
  unfold sortedLanes sortedItem
  dsimp only
  rw [if_pos hl, normalized_lane (fun l => decide (l.val < count)) hvalid, hssoa, ← hcolumns]
  rfl

theorem sortColumns_vsoa (ssoa : Nat → D) (rsoa vsoa vsoa' : Mat D) :
    forgetSorted o (sortColumns o ⟨ssoa, rsoa, vsoa⟩) = forgetSorted o (sortColumns o ⟨ssoa, rsoa, vsoa'⟩) :=
  (sortColumns_forget _).trans (sortColumns_forget ⟨ssoa, rsoa, vsoa'⟩).symm

theorem forget_eq {c c' : Columns D Bool} (h : forget o c = forget o c') : c.ju = c'.ju ∧ c.norms = c'.norms := by
  cases c
  cases c'
  cases h
  exact ⟨rfl, rfl⟩

theorem forgetSorted_eq {s s' : Sorted D} (h : forgetSorted o s = forgetSorted o s') :
    s.ssoa = s'.ssoa ∧ s.rsoa = s'.rsoa := by
  cases s
  cases s'
  cases h
  exact ⟨rfl, rfl⟩

theorem sortedItem_forget (needVt : Bool) (x : Mat D) : forgetSorted o (sortedItem o (decomposeItem o needVt m x)) =
    forgetSorted o (sortedItem o (decomposeItem o true m x)) := by
  obtain ⟨hju, hnorms⟩ := forget_eq (decomposeItem_forget (o := o) (m := m) needVt x)
  have hfloor : (decomposeItem o needVt m x).floor = (decomposeItem o true m x).floor := rfl
  unfold sortedItem
  dsimp only
  rw [hju, hnorms, hfloor]
  exact sortColumns_vsoa _ _ _ _

/-- The replay in a lane, in either order of its loops. -/
theorem replay_lane {rowMajor : Bool} {S : Factor (Fin N → D)} {s : Factor D} (h : Same m l S s kN)
    {R : Mat (Fin N → D)} {r : Mat D} (hr : lane l R = r) :
    Agree m l (replay (o.lanes N) rowMajor m S R) (replay o.machine false m s r) := by
  have hstart : Agree m l (fun row col => if row < kN ∧ col < kN then R row col else (o.lanes N).zero)
      fun row col => if row < kN ∧ col < kN then r row col else o.machine.zero := by
    intro row _ col _
    rw [← hr]
    by_cases hin : row < kN ∧ col < kN
    · simp only [if_pos hin]
      rfl
    · simp only [if_neg hin]
      rfl
  rw [replay_eq (o.lanes N) rowMajor, replay_eq o.machine false]
  unfold replay
  simp only [if_true]
  refine foldl_related (R := Agree m l) (fun k hk X x hx => ?_) hstart
  have hk : k < kN := List.mem_range.mp (List.mem_reverse.mp hk)
  have hbeta : S.beta k l = s.beta k := congrFun h.beta k
  rw [← hbeta]
  exact applyRows_lane (fun row hrow hle => h.reflectors row hrow k hk hle) hx

end Lanes

/-! ## Packing -/

section Pack

variable {D : Type} {o : Floats D} {x : Bits D} {b : Build} {m lane count : Nat} {A : Nat → Mat D} {s : Packed D}

theorem transpose4x4_apply (v : Fin 4 → Fin 4 → D) (i j : Fin 4) : transpose4x4 v j i = v i j := by
  fin_cases i <;> fin_cases j <;> rfl

/-- A lane holds its matrix, scaled. -/
def Ready (o : Floats D) (x : Bits D) (m : Nat) (A : Nat → Mat D) (lane : Nat) (s : Packed D) : Prop :=
  (∀ row < m, ∀ col < kN, s.1 lane row col = scaled o (scaleOf o x m (A lane)) (A lane row col)) ∧
    s.2 lane = scaleOf o x m (A lane)

/-- Whether all values of a matrix are finite. -/
def finite (x : Bits D) (m : Nat) (A : Mat D) : Bool := decide (maximum x m A < infinite)

theorem scaleLane_ok {largest : Nat} : (scaleLane o x m lane largest s).2 = decide (largest < infinite) := by
  unfold scaleLane
  split
  · rename_i h
    exact (decide_eq_false (by omega)).symm
  · rename_i h
    exact (decide_eq_true (by omega)).symm

theorem scaleLane_off {largest lane' : Nat} (h : lane' ≠ lane) :
    (scaleLane o x m lane largest s).1.1 lane' = s.1 lane' ∧
      (scaleLane o x m lane largest s).1.2 lane' = s.2 lane' := by
  unfold scaleLane
  split
  · exact ⟨rfl, rfl⟩
  · exact ⟨Function.update_of_ne h _ _, Function.update_of_ne h _ _⟩

theorem scaleLane_ready (hs : ∀ row < m, ∀ col < kN, s.1 lane row col = A lane row col)
    (h : (scaleLane o x m lane (maximum x m (A lane)) s).2 = true) :
    Ready o x m A lane (scaleLane o x m lane (maximum x m (A lane)) s).1 := by
  have hlt : ¬infinite ≤ maximum x m (A lane) := by
    rw [scaleLane_ok, decide_eq_true_eq] at h
    omega
  unfold scaleLane
  rw [if_neg hlt]
  refine ⟨fun row hrow col hcol => ?_, Function.update_self _ _ _⟩
  dsimp only
  rw [Function.update_self]
  unfold mapBlock
  rw [if_pos (by omega), hs row hrow col hcol]
  rfl

theorem packLane_ready (h : (packLane o x m A s lane).2 = true) : Ready o x m A lane (packLane o x m A s lane).1 := by
  refine scaleLane_ready (fun row hrow col hcol => ?_) h
  dsimp only
  rw [Function.update_self]
  exact if_pos (by omega)

theorem packLane_off {lane' : Nat} (h : lane' ≠ lane) : (packLane o x m A s lane).1.1 lane' = s.1 lane' ∧
    (packLane o x m A s lane).1.2 lane' = s.2 lane' := by
  refine ⟨(scaleLane_off h).1.trans ?_, (scaleLane_off h).2⟩
  exact Function.update_of_ne h _ _

theorem Ready.congr {s' : Packed D} (h : Ready o x m A lane s) (htall : s'.1 lane = s.1 lane)
    (hscale : s'.2 lane = s.2 lane) : Ready o x m A lane s' := by
  unfold Ready
  rw [htall, hscale]
  exact h

/-- A partial chunk, lane by lane. -/
theorem packLanes_ready (count : Nat) (s : Packed D) :
    (untilFalse (packLane o x m A) (List.range count) s).2 = (List.range count).all (fun lane => finite x m (A lane)) ∧
      ((untilFalse (packLane o x m A) (List.range count) s).2 = true → ∀ lane < count,
        Ready o x m A lane (untilFalse (packLane o x m A) (List.range count) s).1) := by
  refine ⟨untilFalse_ok (f := packLane o x m A) (q := fun lane => finite x m (A lane))
    (fun s lane _ => scaleLane_ok) s, fun h lane hlane => ?_⟩
  refine untilFalse_reaches (List.mem_range.mpr hlane) (fun s lane' _ hok hs => ?_) (fun s => packLane_ready) h
  by_cases heq : lane' = lane
  · subst heq
    exact packLane_ready hok
  · have hoff := packLane_off (o := o) (x := x) (m := m) (A := A) (s := s) (Ne.symm heq)
    exact hs.congr hoff.1 hoff.2

/-! ### Four lanes at once -/

section Quad

variable {lane0 col : Nat} {t : (Nat → Mat D) × (Fin 4 → Nat)}

theorem packBlock_tall {row row' col' : Nat} : (packBlock x A lane0 col t row).1 lane row' col' =
    if (lane0 ≤ lane ∧ lane < lane0 + 4) ∧ (row ≤ row' ∧ row' < row + 4) ∧ col' = col then A lane row' col'
    else t.1 lane row' col' := by
  unfold packBlock
  dsimp only
  split
  · rename_i h
    obtain ⟨⟨hlane, hlane'⟩, ⟨hrow, hrow'⟩, rfl⟩ := h
    have hl : lane0 + (Fin.ofNat 4 (lane - lane0)).val = lane := by
      rw [Fin.val_ofNat]
      omega
    have hr : row + (Fin.ofNat 4 (row' - row)).val = row' := by
      rw [Fin.val_ofNat]
      omega
    rw [transpose4x4_apply, hl, hr]
  · rfl

theorem packBlock_max (i : Fin 4) (row : Nat) : (packBlock x A lane0 col t row).2 i =
    (List.finRange 4).foldl (fun s (j : Fin 4) => max s (x.magnitude (A (lane0 + i) (row + j) col))) (t.2 i) := by
  unfold packBlock
  simp only [transpose4x4_apply]
  exact Tiles.foldl_at (fun (i : Fin 4) s (j : Fin 4) => max s (x.magnitude (A (lane0 + i) (row + j) col))) t.2
    (List.finRange 4) i

theorem quad_tall (hlane : lane0 ≤ lane ∧ lane < lane0 + 4) {row : Nat} (hrow : row < kSvdBatch8MaxM)
    (hcol : col < kN) : (quad x A lane0 t).1 lane row col = A lane row col := by
  have hkeep : ∀ (t : (Nat → Mat D) × (Fin 4 → Nat)) col' row', t.1 lane row col = A lane row col →
      (packBlock x A lane0 col' t row').1 lane row col = A lane row col := by
    intro t col' row' ht
    rw [packBlock_tall]
    split
    · rfl
    · exact ht
  refine foldl_reaches (P := fun t => t.1 lane row col = A lane row col) (List.mem_range.mpr hcol)
    (fun t col' _ ht => foldl_keeps (fun t row' _ ht => hkeep t col' row' ht) ht) (fun t => ?_) t
  have hstart : row / 4 * 4 ∈ Tiles.starts 4 0 kSvdBatch8MaxM := by
    refine List.mem_map.mpr ⟨row / 4, List.mem_range.mpr ?_, by omega⟩
    unfold kSvdBatch8MaxM at hrow ⊢
    omega
  refine foldl_reaches (P := fun t => t.1 lane row col = A lane row col) hstart
    (fun t row' _ ht => hkeep t col row' ht) (fun t => ?_) t
  rw [packBlock_tall, if_pos ⟨hlane, by omega, rfl⟩]

theorem quad_off (hlane : lane < lane0 ∨ lane0 + 4 ≤ lane) : (quad x A lane0 t).1 lane = t.1 lane := by
  have hblock : ∀ (t' : (Nat → Mat D) × (Fin 4 → Nat)) col' row', t'.1 lane = t.1 lane →
      (packBlock x A lane0 col' t' row').1 lane = t.1 lane := by
    intro t' col' row' ht
    funext row col
    rw [packBlock_tall, if_neg (by omega), ht]
  exact foldl_keeps (P := fun t' : (Nat → Mat D) × (Fin 4 → Nat) => t'.1 lane = t.1 lane)
    (fun t' col' _ ht => foldl_keeps (fun t' row' _ ht => hblock t' col' row' ht) ht) rfl

theorem quad_max (i : Fin 4) (h : t.2 i = 0) : (quad x A lane0 t).2 i = maximum x kSvdBatch8MaxM (A (lane0 + i)) := by
  have hrows : ∀ (t : (Nat → Mat D) × (Fin 4 → Nat)) col,
      ((Tiles.starts 4 0 kSvdBatch8MaxM).foldl (packBlock x A lane0 col) t).2 i =
      (List.range kSvdBatch8MaxM).foldl (fun s row => max s (x.magnitude (A (lane0 + i) row col))) (t.2 i) := by
    intro t col
    have hblocks : (fun t : (Nat → Mat D) × (Fin 4 → Nat) => t.2 i)
        ((Tiles.starts 4 0 kSvdBatch8MaxM).foldl (packBlock x A lane0 col) t) =
        (Tiles.starts 4 0 kSvdBatch8MaxM).foldl (fun s row => (List.finRange 4).foldl (fun s (j : Fin 4) =>
          max s (x.magnitude (A (lane0 + i) (row + j) col))) s) (t.2 i) := by
      generalize Tiles.starts 4 0 kSvdBatch8MaxM = rows
      induction rows generalizing t with
      | nil => rfl
      | cons row rows ih =>
        rw [List.foldl_cons, List.foldl_cons, ih, packBlock_max]
    have hall := foldl_vectors (N := 4) (f := fun s row => max s (x.magnitude (A (lane0 + i) row col)))
      (Nat.zero_le kSvdBatch8MaxM) (t.2 i)
    have hstop : Tiles.stop 4 0 kSvdBatch8MaxM = kSvdBatch8MaxM := rfl
    rw [hstop, Nat.sub_self, List.range'_zero, List.foldl_nil, Nat.sub_zero, ← List.range_eq_range'] at hall
    exact hblocks.trans hall
  have hall : ∀ (cols : List Nat) (t : (Nat → Mat D) × (Fin 4 → Nat)),
      (cols.foldl (fun t col => (Tiles.starts 4 0 kSvdBatch8MaxM).foldl (packBlock x A lane0 col) t) t).2 i =
      cols.foldl (fun s col => (List.range kSvdBatch8MaxM).foldl
        (fun s row => max s (x.magnitude (A (lane0 + i) row col))) s) (t.2 i) := by
    intro cols
    induction cols with
    | nil => exact fun _ => rfl
    | cons col cols ih =>
      intro t
      rw [List.foldl_cons, List.foldl_cons, ih, hrows]
  have hcols := hall (List.range kN) t
  rw [h] at hcols
  exact hcols

theorem packQuad_eq : packQuad o x kSvdBatch8MaxM A s lane0 =
    untilFalse (fun s (i : Fin 4) => scaleLane o x kSvdBatch8MaxM (lane0 + i)
      (maximum x kSvdBatch8MaxM (A (lane0 + i))) s) (List.finRange 4) ((quad x A lane0 (s.1, fun _ => 0)).1, s.2) := by
  have hmax : ∀ i : Fin 4, (quad x A lane0 (s.1, fun _ => 0)).2 i = maximum x kSvdBatch8MaxM (A (lane0 + i)) :=
    fun i => quad_max i rfl
  unfold packQuad
  simp only [hmax]

theorem packQuad_ok : (packQuad o x kSvdBatch8MaxM A s lane0).2 =
    (List.finRange 4).all fun i : Fin 4 => finite x kSvdBatch8MaxM (A (lane0 + i)) := by
  rw [packQuad_eq]
  exact untilFalse_ok (q := fun i : Fin 4 => finite x kSvdBatch8MaxM (A (lane0 + i))) (fun s i _ => scaleLane_ok) _

/-- Each lane of a quad is scaled once, from the values that were transposed. -/
theorem packQuad_ready (i : Fin 4) (h : (packQuad o x kSvdBatch8MaxM A s lane0).2 = true) :
    Ready o x kSvdBatch8MaxM A (lane0 + i) (packQuad o x kSvdBatch8MaxM A s lane0).1 := by
  have hfinite : ¬infinite ≤ maximum x kSvdBatch8MaxM (A (lane0 + i)) := by
    rw [packQuad_ok] at h
    have hi := of_decide_eq_true (List.all_eq_true.mp h i (List.mem_finRange i))
    omega
  rw [packQuad_eq] at h ⊢
  rw [untilFalse_run h]
  have hown := foldl_own (fun (q : Fin 4) (s : Packed D) => (s.1 (lane0 + q), s.2 (lane0 + q)))
    (f := fun s (i : Fin 4) => (scaleLane o x kSvdBatch8MaxM (lane0 + i)
      (maximum x kSvdBatch8MaxM (A (lane0 + i))) s).1)
    (g := fun q y => if infinite ≤ maximum x kSvdBatch8MaxM (A (lane0 + q)) then y
      else (mapBlock 0 kSvdBatch8MaxM 0 kN (fun _ _ value => scaled o (scaleOf o x kSvdBatch8MaxM (A (lane0 + q)))
        value) y.1, scaleOf o x kSvdBatch8MaxM (A (lane0 + q))))
    (fun s q => by
      unfold scaleLane
      split
      · rfl
      · exact Prod.ext (Function.update_self _ _ _) (Function.update_self _ _ _))
    (fun s q q' hne => by
      have hlane : lane0 + q.val ≠ lane0 + q'.val := fun heq => hne (Fin.ext (by omega))
      have hoff : (scaleLane o x kSvdBatch8MaxM (lane0 + q') (maximum x kSvdBatch8MaxM (A (lane0 + q'))) s).1.1
          (lane0 + q) = s.1 (lane0 + q) ∧ (scaleLane o x kSvdBatch8MaxM (lane0 + q')
            (maximum x kSvdBatch8MaxM (A (lane0 + q'))) s).1.2 (lane0 + q) = s.2 (lane0 + q) := scaleLane_off hlane
      rw [hoff.1, hoff.2])
    (List.nodup_finRange 4) (List.mem_finRange i) ((quad x A lane0 (s.1, fun _ => 0)).1, s.2)
  rw [if_neg hfinite] at hown
  have htall := congrArg Prod.fst hown
  have hscale := congrArg Prod.snd hown
  dsimp only at htall hscale
  refine ⟨fun row hrow col hcol => ?_, hscale⟩
  have hin : lane0 ≤ lane0 + i.val ∧ lane0 + i.val < lane0 + 4 := by omega
  rw [htall]
  unfold mapBlock
  rw [if_pos ⟨Nat.zero_le row, hrow, Nat.zero_le col, hcol⟩]
  exact congrArg (scaled o _) (quad_tall hin hrow hcol)

theorem packQuad_off (hlane : lane < lane0 ∨ lane0 + 4 ≤ lane) :
    (packQuad o x kSvdBatch8MaxM A s lane0).1.1 lane = s.1 lane ∧
      (packQuad o x kSvdBatch8MaxM A s lane0).1.2 lane = s.2 lane := by
  rw [packQuad_eq]
  refine untilFalse_keeps (P := fun s' : Packed D => s'.1 lane = s.1 lane ∧ s'.2 lane = s.2 lane)
    (fun s' i _ hs => ?_) ⟨quad_off hlane, rfl⟩
  have hne : lane ≠ lane0 + i.val := by omega
  exact ⟨(scaleLane_off hne).1.trans hs.1, (scaleLane_off hne).2.trans hs.2⟩

end Quad

/-- The lanes of a full chunk, four at a time. -/
theorem packQuads_ready {K : Nat} (hK : 4 ∣ K) (s : Packed D) :
    (untilFalse (packQuad o x kSvdBatch8MaxM A) (Tiles.starts 4 0 K) s).2 =
      (List.range K).all (fun lane => finite x kSvdBatch8MaxM (A lane)) ∧
    ((untilFalse (packQuad o x kSvdBatch8MaxM A) (Tiles.starts 4 0 K) s).2 = true → ∀ lane < K,
      Ready o x kSvdBatch8MaxM A lane (untilFalse (packQuad o x kSvdBatch8MaxM A) (Tiles.starts 4 0 K) s).1) := by
  obtain ⟨n, rfl⟩ := hK
  have hmem : ∀ lane < 4 * n, lane / 4 * 4 ∈ Tiles.starts 4 0 (4 * n) := by
    intro lane hlane
    exact List.mem_map.mpr ⟨lane / 4, List.mem_range.mpr (by omega), by omega⟩
  refine ⟨?_, fun h lane hlane => ?_⟩
  · rw [untilFalse_ok (q := fun lane0 => (List.finRange 4).all fun i : Fin 4 => finite x kSvdBatch8MaxM (A (lane0 + i)))
      fun s lane0 _ => packQuad_ok, Bool.eq_iff_iff, List.all_eq_true, List.all_eq_true]
    constructor
    · intro hall lane hlane
      have hquad := List.all_eq_true.mp (hall _ (hmem lane (List.mem_range.mp hlane)))
        ⟨lane % 4, Nat.mod_lt _ (by decide)⟩ (List.mem_finRange _)
      have hsum : lane / 4 * 4 + lane % 4 = lane := by omega
      dsimp only at hquad
      rw [hsum] at hquad
      exact hquad
    · intro hall lane0 hlane0
      obtain ⟨-, hle, -⟩ := Tiles.mem_starts hlane0
      exact List.all_eq_true.mpr fun i _ => hall _ (List.mem_range.mpr (by omega))
  · refine untilFalse_reaches (hmem lane hlane) (fun s lane0 hlane0 hok hs => ?_) (fun s hok => ?_) h
    · by_cases hin : lane0 ≤ lane ∧ lane < lane0 + 4
      · have hready := packQuad_ready ⟨lane - lane0, by omega⟩ hok
        have hsum : lane0 + (lane - lane0) = lane := by omega
        dsimp only at hready
        rwa [hsum] at hready
      · have hout : lane < lane0 ∨ lane0 + 4 ≤ lane := by omega
        exact hs.congr (packQuad_off hout).1 (packQuad_off hout).2
    · have hready := packQuad_ready ⟨lane % 4, Nat.mod_lt _ (by decide)⟩ hok
      have hsum : lane / 4 * 4 + lane % 4 = lane := by omega
      dsimp only at hready
      rwa [hsum] at hready

/-- Both ways of packing refuse a chunk with a value that is not finite, and have all its lanes ready
otherwise. -/
theorem pack_ready (A : Nat → Mat D) (count : Nat) (storage : Packed D) :
    (pack o x b m A count storage).2 = (List.range count).all (fun lane => finite x m (A lane)) ∧
      ((pack o x b m A count storage).2 = true → ∀ lane < count,
        Ready o x m A lane (pack o x b m A count storage).1) := by
  unfold pack
  dsimp only
  split
  · rename_i h
    obtain ⟨rfl, rfl⟩ := of_decide_eq_true h.1
    exact packQuads_ready b.quads _
  · exact packLanes_ready count _

end Pack

/-! ## What is written -/

/-- An element of what is returned. -/
inductive Cell
  | S (col : Nat)
  | U (row col : Nat)
  | Vt (row col : Nat)

def Out.at {D : Type} (r : Out D) : Cell → D
  | .S col => r.S col
  | .U row col => r.U row col
  | .Vt row col => r.Vt row col

/-- Nothing but values of `f` has been written. -/
def Writes {D : Type} (f old new : Nat → Out D) : Prop :=
  ∀ g c, (new g).at c = (old g).at c ∨ (new g).at c = (f g).at c

section Results

variable {D : Type} {o : Floats D} {x : Bits D} {b : Build} {N m : Nat} {f out new : Nat → Out D} {g : Nat}

theorem Writes.refl : Writes f out out := fun _ _ => .inl rfl

theorem Writes.trans {last : Nat → Out D} (h : Writes f out new) (h' : Writes f new last) : Writes f out last := by
  intro g c
  cases h' g c with
  | inl hsame =>
    rw [hsame]
    exact h g c
  | inr hnew => exact .inr hnew

/-- What is right stays right. -/
theorem Writes.keeps (h : Writes f out new) {c : Cell} (hc : (out g).at c = (f g).at c) :
    (new g).at c = (f g).at c := by
  cases h g c with
  | inl hsame => exact hsame.trans hc
  | inr hnew => exact hnew

/-- One item changed in cells that get the values of `f`. -/
theorem writes_update {r : Out D} (h : ∀ c, r.at c = (out g).at c ∨ r.at c = (f g).at c) :
    Writes f out (Function.update out g r) := by
  intro g' c
  by_cases hg : g' = g
  · subst hg
    rw [Function.update_self]
    exact h c
  · rw [Function.update_of_ne hg]
    exact .inl rfl

theorem writeS_writes {col : Nat} {value : D} (h : value = (f g).S col) :
    Writes f out (writeS x g col value out).1 := by
  refine writes_update fun c => ?_
  cases c with
  | S c =>
    by_cases hc : c = col
    · subst hc
      exact .inr ((Function.update_self _ _ _).trans h)
    · exact .inl (Function.update_of_ne hc _ _)
  | U row c => exact .inl rfl
  | Vt row c => exact .inl rfl

theorem writeU_writes {col : Nat} {tall : Mat D} (h : ∀ row < m, tall row col = (f g).U row col) :
    Writes f out (writeU m g col tall out) := by
  refine writes_update fun c => ?_
  cases c with
  | S c => exact .inl rfl
  | U row c =>
    by_cases hin : 0 ≤ row ∧ row < m ∧ col ≤ c ∧ c < col + 1
    · obtain rfl : c = col := by omega
      exact .inr ((if_pos hin).trans (h row hin.2.1))
    · exact .inl (if_neg hin)
  | Vt row c => exact .inl rfl

theorem writeVt_writes {vsoa : Mat D} (h : ∀ row < kN, ∀ col < kN, vsoa col row = (f g).Vt row col) :
    Writes f out (writeVt g vsoa out) := by
  refine writes_update fun c => ?_
  cases c with
  | S c => exact .inl rfl
  | U row c => exact .inl rfl
  | Vt row c =>
    by_cases hin : 0 ≤ row ∧ row < kN ∧ 0 ≤ c ∧ c < kN
    · exact .inr ((if_pos hin).trans (h row hin.2.1 c hin.2.2.2))
    · exact .inl (if_neg hin)

theorem writeS_brings {col : Nat} {value : D} : ((writeS x g col value out).1 g).at (.S col) = value := by
  unfold writeS
  dsimp only [Out.at]
  rw [Function.update_self]
  exact Function.update_self _ _ _

theorem writeU_brings {row col : Nat} {tall : Mat D} (hrow : row < m) :
    ((writeU m g col tall out) g).at (.U row col) = tall row col := by
  unfold writeU
  dsimp only [Out.at]
  rw [Function.update_self]
  exact if_pos (by omega)

theorem writeVt_brings {row col : Nat} {vsoa : Mat D} (hrow : row < kN) (hcol : col < kN) :
    ((writeVt g vsoa out) g).at (.Vt row col) = vsoa col row := by
  unfold writeVt
  dsimp only [Out.at]
  rw [Function.update_self]
  exact if_pos (by omega)

/-- A value of `S` is accepted if it is finite. -/
def finiteS (x : Bits D) (r : Out D) : Bool := (List.range kN).all fun col => decide (x.magnitude (r.S col) < infinite)

section Values

variable {s : Sorted D} {scale : D} {also : Nat → (Nat → Out D) → Nat → Out D}

theorem writeValues_ok (h : ∀ col, o.div (s.ssoa col) scale = (f g).S col) :
    (writeValues o x g s scale also out).2 = finiteS x (f g) := by
  refine untilFalse_ok (q := fun col => decide (x.magnitude ((f g).S col) < infinite)) (fun out col _ => ?_) out
  dsimp only
  rw [← h col]
  have hok : (writeS x g col (o.div (s.ssoa col) scale) out).2 =
      decide (x.magnitude (o.div (s.ssoa col) scale) < infinite) := rfl
  cases hdecide : decide (x.magnitude (o.div (s.ssoa col) scale) < infinite) with
  | true => rw [hok, hdecide, if_pos rfl]
  | false => rw [hok, hdecide, if_neg Bool.false_ne_true, hok, hdecide]

theorem value_writes (h : ∀ col, o.div (s.ssoa col) scale = (f g).S col)
    (halso : ∀ col < kN, ∀ out, Writes f out (also col out)) {col : Nat} (hcol : col < kN) (out : Nat → Out D) :
    Writes f out (if (writeS x g col (o.div (s.ssoa col) scale) out).2 then
      (also col (writeS x g col (o.div (s.ssoa col) scale) out).1, true)
      else writeS x g col (o.div (s.ssoa col) scale) out).1 := by
  split
  · exact (writeS_writes (h col)).trans (halso col hcol _)
  · exact writeS_writes (h col)

theorem writeValues_writes (h : ∀ col, o.div (s.ssoa col) scale = (f g).S col)
    (halso : ∀ col < kN, ∀ out, Writes f out (also col out)) :
    Writes f out (writeValues o x g s scale also out).1 :=
  untilFalse_keeps (P := fun new => Writes f out new)
    (fun _ _ hcol hw => hw.trans (value_writes h halso (List.mem_range.mp hcol) _)) Writes.refl

/-- Where all values are finite, they are there afterwards, and so is what was written beside them. -/
theorem writeValues_brings (h : ∀ col, o.div (s.ssoa col) scale = (f g).S col)
    (halso : ∀ col < kN, ∀ out, Writes f out (also col out))
    (hok : (writeValues o x g s scale also out).2 = true) {col : Nat} (hcol : col < kN) :
    ((writeValues o x g s scale also out).1 g).at (.S col) = (f g).at (.S col) ∧
      ∀ c : Cell, (∀ out, ((also col out) g).at c = (f g).at c) →
        ((writeValues o x g s scale also out).1 g).at c = (f g).at c := by
  have hkeep : ∀ c : Cell, ∀ out : Nat → Out D, ∀ col' ∈ List.range kN, (out g).at c = (f g).at c →
      ((if (writeS x g col' (o.div (s.ssoa col') scale) out).2 then
        (also col' (writeS x g col' (o.div (s.ssoa col') scale) out).1, true)
        else writeS x g col' (o.div (s.ssoa col') scale) out).1 g).at c = (f g).at c :=
    fun c out col' hcol' hc => (value_writes h halso (List.mem_range.mp hcol') out).keeps hc
  refine ⟨?_, fun c hc => ?_⟩
  · refine untilFalse_reaches (P := fun new : Nat → Out D => (new g).at (.S col) = (f g).at (.S col))
      (List.mem_range.mpr hcol) (fun out col' hcol' _ hs => hkeep _ out col' hcol' hs) (fun out hround => ?_) hok
    dsimp only at hround ⊢
    split
    · exact (halso col hcol _).keeps (writeS_brings.trans (h col))
    · exact writeS_brings.trans (h col)
  · refine untilFalse_reaches (P := fun new : Nat → Out D => (new g).at c = (f g).at c)
      (List.mem_range.mpr hcol) (fun out col' hcol' _ hs => hkeep _ out col' hcol' hs) (fun out hround => ?_) hok
    dsimp only at hround ⊢
    cases hvalue : (writeS x g col (o.div (s.ssoa col) scale) out).2 with
    | true =>
      rw [if_pos rfl]
      exact hc _
    | false =>
      rw [hvalue, if_neg Bool.false_ne_true, hvalue] at hround
      cases hround

end Values

section Blocks

variable {first lane0 col : Nat} {tall : Nat → Mat D}

theorem writeBlock_writes (h : ∀ i : Fin 4, ∀ row < m, tall (lane0 + i) row col = (f (first + (lane0 + i))).U row col)
    {row : Nat} (hrow : row + 4 ≤ m) : Writes f out (writeBlock first tall lane0 col out row) := by
  unfold writeBlock
  simp only [transpose4x4_apply]
  refine foldl_keeps (P := fun new => Writes f out new) (fun new i _ hw => hw.trans (writes_update fun c => ?_))
    Writes.refl
  cases c with
  | S c => exact .inl rfl
  | U row' c =>
    by_cases hin : row ≤ row' ∧ row' < row + 4 ∧ col ≤ c ∧ c < col + 1
    · obtain rfl : c = col := by omega
      have hoffset : row + (Fin.ofNat 4 (row' - row)).val = row' := by
        rw [Fin.val_ofNat]
        omega
      refine .inr ((if_pos hin).trans ?_)
      rw [hoffset]
      exact h i row' (by omega)
    · exact .inl (if_neg hin)
  | Vt row c => exact .inl rfl

theorem writeBlock_brings (h : ∀ i : Fin 4, ∀ row < m, tall (lane0 + i) row col = (f (first + (lane0 + i))).U row col)
    {row row' : Nat} (hrow : row + 4 ≤ m) (hin : row ≤ row' ∧ row' < row + 4) (i : Fin 4) (out : Nat → Out D) :
    ((writeBlock first tall lane0 col out row) (first + (lane0 + i))).at (.U row' col) =
      (f (first + (lane0 + i))).at (.U row' col) := by
  have hoffset : row + (Fin.ofNat 4 (row' - row)).val = row' := by
    rw [Fin.val_ofNat]
    omega
  unfold writeBlock
  simp only [transpose4x4_apply]
  have hround : ∀ (out : Nat → Out D) (i' : Fin 4),
      (∀ row < m, tall (lane0 + i') row col = (f (first + (lane0 + i'))).U row col) →
      ((Function.update out (first + (lane0 + i')) { out (first + (lane0 + i')) with
        U := mapBlock row (row + 4) col (col + 1) (fun row' _ _ => tall (lane0 + i')
          (row + (Fin.ofNat 4 (row' - row)).val) col) (out (first + (lane0 + i'))).U })
          (first + (lane0 + i'))).at (.U row' col) = (f (first + (lane0 + i'))).at (.U row' col) := by
    intro out i' hi'
    rw [Function.update_self]
    refine (if_pos ⟨hin.1, hin.2, Nat.le_refl col, Nat.lt_succ_self col⟩).trans ?_
    rw [hoffset]
    exact hi' row' (by omega)
  refine foldl_reaches (P := fun new : Nat → Out D => (new (first + (lane0 + i))).at (.U row' col) =
    (f (first + (lane0 + i))).at (.U row' col)) (List.mem_finRange i) (fun new i' _ hw => ?_)
    (fun new => hround new i (h i)) out
  by_cases heq : first + (lane0 + i.val) = first + (lane0 + i'.val)
  · rw [heq]
    exact hround new i' (h i')
  · rw [Function.update_of_ne heq]
    exact hw

/-- A quad of lanes lies in the vector. -/
theorem mem_quad {K lane0 : Nat} (h : lane0 ∈ Tiles.starts 4 0 K) (i : Fin 4) : lane0 + i.val < K := by
  obtain ⟨-, hle, -⟩ := Tiles.mem_starts h
  omega

theorem quad_mem {K l : Nat} (hK : 4 ∣ K) (hl : l < K) : l / 4 * 4 ∈ Tiles.starts 4 0 K := by
  refine List.mem_map.mpr ⟨l / 4, List.mem_range.mpr ?_, by omega⟩
  rw [Nat.sub_zero]
  omega

section All

variable (h : ∀ l < b.batchLanes, ∀ row < m, ∀ col < kN, tall l row col = (f (first + l)).U row col)
include h

theorem writeColumn_writes (hlane0 : lane0 ∈ Tiles.starts 4 0 b.batchLanes) (hcol : col < kN) :
    Writes f out ((Tiles.starts 4 0 m).foldl (writeBlock first tall lane0 col) out) := by
  refine foldl_keeps (P := fun new => Writes f out new) (fun new row hrow hw => hw.trans ?_) Writes.refl
  exact writeBlock_writes (fun i row hrow => h _ (mem_quad hlane0 i) row hrow col hcol) (Tiles.mem_starts hrow).2.1

theorem writeQuad_writes (hlane0 : lane0 ∈ Tiles.starts 4 0 b.batchLanes) :
    Writes f out ((List.range kN).foldl (fun out col =>
      (Tiles.starts 4 0 m).foldl (writeBlock first tall lane0 col) out) out) :=
  foldl_keeps (P := fun new => Writes f out new)
    (fun _ _ hcol hw => hw.trans (writeColumn_writes h hlane0 (List.mem_range.mp hcol))) Writes.refl

theorem writeBlocks_writes : Writes f out (writeBlocks b m first tall out) :=
  foldl_keeps (P := fun new => Writes f out new) (fun _ _ hlane0 hw => hw.trans (writeQuad_writes h hlane0))
    Writes.refl

theorem writeBlocks_brings (hm : 4 ∣ m) {l row : Nat} (hl : l < b.batchLanes) (hrow : row < m) (hcol : col < kN) :
    ((writeBlocks b m first tall out) (first + l)).at (.U row col) = (f (first + l)).at (.U row col) := by
  have hlane0 := quad_mem b.quads hl
  have hrow0 := quad_mem hm hrow
  have hlane : l / 4 * 4 + (⟨l % 4, Nat.mod_lt _ (by decide)⟩ : Fin 4).val = l := by
    dsimp only
    omega
  refine foldl_reaches (P := fun new : Nat → Out D => (new (first + l)).at (.U row col) =
    (f (first + l)).at (.U row col)) hlane0 (fun _ _ hq hw => (writeQuad_writes h hq).keeps hw) (fun out => ?_) out
  refine foldl_reaches (P := fun new : Nat → Out D => (new (first + l)).at (.U row col) =
    (f (first + l)).at (.U row col)) (List.mem_range.mpr hcol)
    (fun _ _ hc hw => (writeColumn_writes h hlane0 (List.mem_range.mp hc)).keeps hw) (fun out => ?_) out
  have hblock : ∀ row0 ∈ Tiles.starts 4 0 m, ∀ out : Nat → Out D,
      Writes f out (writeBlock first tall (l / 4 * 4) col out row0) := fun row0 hmem out =>
    writeBlock_writes (fun i row hrow => h _ (mem_quad hlane0 i) row hrow col hcol) (Tiles.mem_starts hmem).2.1
  refine foldl_reaches (P := fun new : Nat → Out D => (new (first + l)).at (.U row col) =
    (f (first + l)).at (.U row col)) hrow0 (fun out _ hr hw => (hblock _ hr out).keeps hw) (fun out => ?_) out
  have hbrings := writeBlock_brings (f := f) (fun i row hrow => h _ (mem_quad hlane0 i) row hrow col hcol)
    (Tiles.mem_starts hrow0).2.1 (show row / 4 * 4 ≤ row ∧ row < row / 4 * 4 + 4 by omega)
    ⟨l % 4, Nat.mod_lt _ (by decide)⟩ out
  rw [hlane] at hbrings
  exact hbrings

end All

end Blocks

end Results

/-! ## A chunk -/

section Chunk

variable {D : Type} {o : Floats D} {x : Bits D} {b : Build} {N m count first : Nat} {A : Nat → Mat D}
  {storage : Packed D} {junk : Mat (Fin N → D)} {f out : Nat → Out D}

/-- Whether nothing about an item makes the call fail. -/
def itemOk (o : Floats D) (x : Bits D) (m : Nat) (A : Mat D) : Bool := finite x m A && finiteS x (item o x m A)

/-- What is returned for an item is there. -/
structure Complete (b : Build) (m : Nat) (f r : Out D) : Prop where
  S : ∀ col < kN, r.S col = f.S col
  U : b.needU = true → ∀ row < m, ∀ col < kN, r.U row col = f.U row col
  Vt : b.needVt = true → ∀ row < kN, ∀ col < kN, r.Vt row col = f.Vt row col

/-- The decomposition of a chunk that is packed. -/
def decomposed (o : Floats D) (b : Build) (N m count : Nat) (packed : Packed D) (junk : Mat (Fin N → D)) :
    Decomposed (Fin N → D) (Fin N → Bool) :=
  decomposeLanes o b N m count (fun row col l => packed.1 l row col)
    (if packedHot b m count then junk else fun _ _ _ => o.zero)

/-- What a lane holds before the results are written. -/
structure Finished (o : Floats D) (x : Bits D) (b : Build) (m : Nat) (packed : Packed D) (l : Fin N)
    (s : Sorted D) (tall : Mat D) (r : Out D) : Prop where
  S : ∀ col, o.div (s.ssoa col) (packed.2 l) = r.S col
  U : ∀ row < m, ∀ col < kN, tall row col = r.U row col
  Vt : b.needVt = true → ∀ row < kN, ∀ col < kN, s.vsoa col row = r.Vt row col

theorem finished (b : Build) (junk : Mat (Fin N → D)) (hm : kN ≤ m) {packed : Packed D} {l : Fin N} (hl : l.val < count)
    (h : Ready o x m A l packed) : Finished o x b m packed l
      (sortedLanes o N count (decomposed o b N m count packed junk) l)
      (lane l (replay (o.lanes N) b.rowMajor m (decomposed o b N m count packed junk).factor fun row col l =>
        (sortedLanes o N count (decomposed o b N m count packed junk) l).rsoa row col)) (item o x m (A l)) := by
  have hagree : Agree m l (fun row col l => packed.1 l row col)
      fun row col => scaled o (scaleOf o x m (A l)) (A l row col) := h.1
  obtain ⟨hsame, hcolumns, hfloor⟩ := decomposeLanes_read (o := o) (b := b)
    (if packedHot b m count then junk else fun _ _ _ => o.zero) hm hl hagree
  have hsorted : sortedLanes o N count (decomposed o b N m count packed junk) l =
      sortedItem o (decomposeItem o b.needVt m fun row col => scaled o (scaleOf o x m (A l)) (A l row col)) :=
    sortedLanes_read hl hcolumns hfloor
  obtain ⟨hssoa, hrsoa⟩ := forgetSorted_eq (sortedItem_forget (o := o) (m := m) b.needVt
    fun row col => scaled o (scaleOf o x m (A l)) (A l row col))
  refine ⟨fun col => ?_, ?_, fun hneed row _ col _ => ?_⟩
  · rw [hsorted, h.2, hssoa]
    rfl
  · have hfactor : (decomposeItem o b.needVt m fun row col => scaled o (scaleOf o x m (A l)) (A l row col)).factor =
        (decomposeItem o true m fun row col => scaled o (scaleOf o x m (A l)) (A l row col)).factor := rfl
    rw [hfactor] at hsame
    refine replay_lane hsame ?_
    funext row col
    rw [lane_apply, hsorted, hrsoa]
  · rw [hsorted, hneed]
    rfl

/-! ### The loops over the lanes -/

theorem after_ok {r : (Nat → Out D) × Bool} {post : (Nat → Out D) → Nat → Out D} : (after r post).2 = r.2 := by
  unfold after
  split
  · rename_i h
    exact h.symm
  · rfl

theorem after_writes {r : (Nat → Out D) × Bool} {post : (Nat → Out D) → Nat → Out D} (h : Writes f out r.1)
    (hpost : ∀ out, Writes f out (post out)) : Writes f out (after r post).1 := by
  unfold after
  split
  · exact h.trans (hpost _)
  · exact h

theorem after_brings {r : (Nat → Out D) × Bool} {post : (Nat → Out D) → Nat → Out D} {c : Cell} {g : Nat}
    (hok : (after r post).2 = true) (h : ((post r.1) g).at c = (f g).at c) :
    ((after r post).1 g).at c = (f g).at c := by
  rw [after_ok] at hok
  unfold after
  rw [if_pos hok]
  exact h

theorem mem_used {l : Fin N} : l ∈ used N count ↔ l.val < count := by simp [used]

theorem used_all (hcount : count ≤ N) (q : Nat → Bool) :
    (used N count).all (fun l => q l.val) = (List.range count).all q := by
  rw [Bool.eq_iff_iff, List.all_eq_true, List.all_eq_true]
  constructor
  · intro h l hl
    have hlt := List.mem_range.mp hl
    exact h ⟨l, by omega⟩ (mem_used.mpr hlt)
  · exact fun h l hl => h l.val (List.mem_range.mpr (mem_used.mp hl))

section Rounds

variable {round : (Nat → Out D) → Fin N → (Nat → Out D) × Bool}

theorem lanes_ok (hcount : count ≤ N)
    (h : ∀ out, ∀ l : Fin N, l.val < count → (round out l).2 = finiteS x (f (first + l))) :
    (untilFalse round (used N count) out).2 = (List.range count).all fun l => finiteS x (f (first + l)) := by
  rw [← used_all hcount]
  exact untilFalse_ok (q := fun l : Fin N => finiteS x (f (first + l))) (fun out l hl => h out l (mem_used.mp hl)) out

theorem lanes_writes (h : ∀ out, ∀ l : Fin N, l.val < count → Writes f out (round out l).1) :
    Writes f out (untilFalse round (used N count) out).1 :=
  untilFalse_keeps (P := fun new => Writes f out new) (fun new l hl hw => hw.trans (h new l (mem_used.mp hl)))
    Writes.refl

theorem lanes_brings (hw : ∀ out, ∀ l : Fin N, l.val < count → Writes f out (round out l).1) {l : Fin N}
    (hl : l.val < count) {c : Cell}
    (hc : ∀ out, (round out l).2 = true → ((round out l).1 (first + l)).at c = (f (first + l)).at c)
    (hok : (untilFalse round (used N count) out).2 = true) :
    ((untilFalse round (used N count) out).1 (first + l)).at c = (f (first + l)).at c :=
  untilFalse_reaches (P := fun new : Nat → Out D => (new (first + l)).at c = (f (first + l)).at c) (mem_used.mpr hl)
    (fun new l' hl' _ hs => (hw new l' (mem_used.mp hl')).keeps hs) hc hok

end Rounds

/-- A round of such a loop: the values of a lane with what is written beside and after them. -/
structure Round (o : Floats D) (x : Bits D) (f : Nat → Out D) (g : Nat) (s : Sorted D) (scale : D)
    (also : Nat → (Nat → Out D) → Nat → Out D) (post : (Nat → Out D) → Nat → Out D) : Prop where
  S : ∀ col, o.div (s.ssoa col) scale = (f g).S col
  also : ∀ col < kN, ∀ out, Writes f out (also col out)
  post : ∀ out, Writes f out (post out)

section Round

variable {g : Nat} {s : Sorted D} {scale : D} {also : Nat → (Nat → Out D) → Nat → Out D}
  {post : (Nat → Out D) → Nat → Out D}

theorem Round.ok (h : Round o x f g s scale also post) (out : Nat → Out D) :
    (after (writeValues o x g s scale also out) post).2 = finiteS x (f g) := after_ok.trans (writeValues_ok h.S)

theorem Round.writes (h : Round o x f g s scale also post) (out : Nat → Out D) :
    Writes f out (after (writeValues o x g s scale also out) post).1 :=
  after_writes (writeValues_writes h.S h.also) h.post

theorem Round.brings_S (h : Round o x f g s scale also post)
    (hok : (after (writeValues o x g s scale also out) post).2 = true) {col : Nat} (hcol : col < kN) :
    ((after (writeValues o x g s scale also out) post).1 g).at (.S col) = (f g).at (.S col) :=
  after_brings hok ((h.post _).keeps (writeValues_brings h.S h.also (after_ok.symm.trans hok) hcol).1)

theorem Round.brings_also (h : Round o x f g s scale also post)
    (hok : (after (writeValues o x g s scale also out) post).2 = true) {col : Nat} (hcol : col < kN) {c : Cell}
    (hc : ∀ out, ((also col out) g).at c = (f g).at c) :
    ((after (writeValues o x g s scale also out) post).1 g).at c = (f g).at c :=
  after_brings hok ((h.post _).keeps ((writeValues_brings h.S h.also (after_ok.symm.trans hok) hcol).2 c hc))

end Round

/-- What the call is to do with the items `items` from `first` on. -/
structure Written (b : Build) (m first : Nat) (f out : Nat → Out D) (items : List Nat) (ok : Nat → Bool)
    (r : (Nat → Out D) × Bool) : Prop where
  ok : r.2 = items.all ok
  writes : Writes f out r.1
  complete : r.2 = true → ∀ l ∈ items, Complete b m (f (first + l)) (r.1 (first + l))

section Written

variable {s : Fin N → Sorted D} {scale : Fin N → D}

/-- The loop where the values are written lane after lane, with what belongs to the lane. -/
theorem lanes_written (hcount : count ≤ N) {also : Fin N → Nat → (Nat → Out D) → Nat → Out D}
    {post : Fin N → (Nat → Out D) → Nat → Out D}
    (h : ∀ l : Fin N, l.val < count → Round o x f (first + l) (s l) (scale l) (also l) (post l))
    (hU : b.needU = true → ∀ l : Fin N, l.val < count → ∀ row < m, ∀ col < kN, ∀ out,
      ((also l col out) (first + l)).at (.U row col) = (f (first + l)).at (.U row col))
    (hVt : b.needVt = true → ∀ l : Fin N, l.val < count → ∀ row < kN, ∀ col < kN, ∀ out,
      ((post l out) (first + l)).at (.Vt row col) = (f (first + l)).at (.Vt row col)) :
    Written b m first f out (List.range count) (fun l => finiteS x (f (first + l)))
      (untilFalse (fun out (l : Fin N) => after (writeValues o x (first + l) (s l) (scale l) (also l) out) (post l))
        (used N count) out) := by
  have hw := fun (out : Nat → Out D) (l : Fin N) (hl : l.val < count) => (h l hl).writes out
  refine ⟨lanes_ok hcount fun out l hl => (h l hl).ok out, lanes_writes hw, fun hok l hl => ?_⟩
  have hlt := List.mem_range.mp hl
  obtain ⟨i, rfl⟩ : ∃ i : Fin N, i.val = l := ⟨⟨l, by omega⟩, rfl⟩
  have hround := h i hlt
  refine ⟨fun col hcol => ?_, fun hneed row hrow col hcol => ?_, fun hneed row hrow col hcol => ?_⟩
  · exact lanes_brings hw hlt (c := .S col) (fun out hok => hround.brings_S hok hcol) hok
  · exact lanes_brings hw hlt (c := .U row col)
      (fun out hok => hround.brings_also hok hcol (hU hneed i hlt row hrow col hcol)) hok
  · exact lanes_brings hw hlt (c := .Vt row col)
      (fun out hok => after_brings hok (hVt hneed i hlt row hrow col hcol _)) hok

section Finished

variable {packed : Packed D} {tall : Mat (Fin N → D)}
  (h : ∀ l : Fin N, l.val < count → Finished o x b m packed l (s l) (lane l tall) (f (first + l)))
include h

theorem vt_writes {l : Fin N} (hl : l.val < count) :
    Writes f out (if b.needVt then writeVt (first + l) (s l).vsoa out else out) := by
  split
  · rename_i hneed
    exact writeVt_writes ((h l hl).Vt hneed)
  · exact Writes.refl

theorem vt_brings (hneed : b.needVt = true) {l : Fin N} (hl : l.val < count) {row col : Nat} (hrow : row < kN)
    (hcol : col < kN) :
    ((if b.needVt then writeVt (first + l) (s l).vsoa out else out) (first + l)).at (.Vt row col) =
      (f (first + l)).at (.Vt row col) := by
  rw [if_pos hneed, writeVt_brings hrow hcol]
  exact (h l hl).Vt hneed row hrow col hcol

/-- Without `U`; then `Vt` is asked for. -/
theorem valuesAndVt_written (hcount : count ≤ N) (hneed : b.needU = false) :
    Written b m first f out (List.range count) (fun l => finiteS x (f (first + l)))
      (untilFalse (fun out (l : Fin N) => after (writeValues o x (first + l) (s l) (packed.2 l) (fun _ out => out) out)
        (writeVt (first + l) (s l).vsoa)) (used N count) out) := by
  have hvt : b.needVt = true := by
    cases b.some with
    | inl hvt => exact hvt
    | inr hu => cases hneed.symm.trans hu
  refine lanes_written hcount (fun l hl => ⟨(h l hl).S, fun _ _ _ => Writes.refl, fun out => ?_⟩)
    (fun hu => ?_) fun _ l hl row hrow col hcol out => ?_
  · exact writeVt_writes ((h l hl).Vt hvt)
  · cases hneed.symm.trans hu
  · exact (writeVt_brings hrow hcol).trans ((h l hl).Vt hvt row hrow col hcol)

/-- `U` column by column. -/
theorem columns_written (hcount : count ≤ N) :
    Written b m first f out (List.range count) (fun l => finiteS x (f (first + l)))
      (untilFalse (fun out (l : Fin N) => after (writeValues o x (first + l) (s l) (packed.2 l)
        (fun col out => writeU m (first + l) col (lane l tall) out) out)
        fun out => if b.needVt then writeVt (first + l) (s l).vsoa out else out) (used N count) out) := by
  refine lanes_written hcount (fun l hl => ⟨(h l hl).S, fun col hcol out => ?_, fun out => vt_writes h hl⟩)
    (fun _ l hl row hrow col hcol out => ?_) fun hneed l hl row hrow col hcol out => vt_brings h hneed hl hrow hcol
  · exact writeU_writes fun row hrow => (h l hl).U row hrow col hcol
  · exact (writeU_brings hrow).trans ((h l hl).U row hrow col hcol)

/-- `U` transposed in blocks after all the values. -/
theorem blocks_written (hcount : count ≤ N) (hfull : count = b.batchLanes) (hm : 4 ∣ m) :
    Written b m first f out (List.range count) (fun l => finiteS x (f (first + l)))
      (after (untilFalse (fun out (l : Fin N) =>
          writeValues o x (first + l) (s l) (packed.2 l) (fun _ out => out) out) (used N count) out)
        fun out => (used N count).foldl (fun out (l : Fin N) =>
          if b.needVt then writeVt (first + l) (s l).vsoa out else out) (writeBlocks b m first (fun l row col => if h : l < N then tall row col ⟨l, h⟩ else o.zero) out)) := by
  have hsame : ∀ col < kN, ∀ out : Nat → Out D, Writes f out out := fun _ _ _ => Writes.refl
  have hw : ∀ (out : Nat → Out D) (l : Fin N), l.val < count →
      Writes f out (writeValues o x (first + l) (s l) (packed.2 l) (fun _ out => out) out).1 :=
    fun _ l hl => writeValues_writes (h l hl).S hsame
  have htall : ∀ l < b.batchLanes, ∀ row < m, ∀ col < kN,
      (if h : l < N then tall row col ⟨l, h⟩ else o.zero) = (f (first + l)).U row col := by
    intro l hl row hrow col hcol
    have hlN : l < N := by omega
    rw [dif_pos hlN]
    exact (h ⟨l, hlN⟩ (hfull ▸ hl)).U row hrow col hcol
  have hblocks : ∀ out : Nat → Out D, Writes f out (writeBlocks b m first
      (fun l row col => if h : l < N then tall row col ⟨l, h⟩ else o.zero) out) := fun _ => writeBlocks_writes htall
  have hvt : ∀ new : Nat → Out D, Writes f new ((used N count).foldl (fun out (l : Fin N) =>
      if b.needVt then writeVt (first + l) (s l).vsoa out else out) new) := fun new =>
    foldl_keeps (P := fun last => Writes f new last)
      (fun last l hl hlast => hlast.trans (vt_writes h (mem_used.mp hl))) Writes.refl
  have hpost := fun (out : Nat → Out D) => (hblocks out).trans (hvt _)
  refine ⟨?_, after_writes (lanes_writes hw) hpost, fun hok l hl => ?_⟩
  · rw [after_ok]
    exact lanes_ok hcount fun out l hl => writeValues_ok (h l hl).S
  have hlt := List.mem_range.mp hl
  obtain ⟨i, rfl⟩ : ∃ i : Fin N, i.val = l := ⟨⟨l, by omega⟩, rfl⟩
  refine ⟨fun col hcol => ?_, fun _ row hrow col hcol => ?_, fun hneed row hrow col hcol => ?_⟩
  · refine after_brings (c := .S col) hok ((hpost _).keeps (lanes_brings hw hlt (fun out hok => ?_)
      (after_ok.symm.trans hok)))
    exact (writeValues_brings (h i hlt).S hsame hok hcol).1
  · exact after_brings (c := .U row col) hok ((hvt _).keeps (writeBlocks_brings htall hm (hfull ▸ hlt) hrow hcol))
  · refine after_brings (c := .Vt row col) hok ?_
    exact foldl_reaches (P := fun new : Nat → Out D => (new (first + i)).at (.Vt row col) =
      (f (first + i)).at (.Vt row col)) (mem_used.mpr hlt)
      (fun new l' hl' hnew => (vt_writes h (mem_used.mp hl')).keeps hnew)
      (fun new => vt_brings h hneed hlt hrow hcol) _

end Finished

end Written

theorem svdChunk_spec (hm : kN ≤ m) (hcount : count ≤ N) (hf : ∀ l < count, f (first + l) = item o x m (A l)) :
    Written b m first f out (List.range count) (fun l => itemOk o x m (A l))
      (svdChunk o x b N m A count first storage junk out) := by
  obtain ⟨hpackOk, hready⟩ := pack_ready (o := o) (x := x) (b := b) (m := m) A count storage
  have hall : (List.range count).all (fun l => itemOk o x m (A l)) =
      ((pack o x b m A count storage).2 && (List.range count).all fun l => finiteS x (f (first + l))) := by
    rw [hpackOk, Bool.eq_iff_iff, Bool.and_eq_true, List.all_eq_true, List.all_eq_true, List.all_eq_true,
      ← forall₂_and]
    refine forall₂_congr fun l hl => ?_
    rw [hf l (List.mem_range.mp hl), itemOk, Bool.and_eq_true]
  unfold svdChunk
  dsimp only
  cases hpack : (pack o x b m A count storage).2 with
  | false =>
    rw [if_neg Bool.false_ne_true]
    refine ⟨?_, Writes.refl, nofun⟩
    rw [hall, hpack, Bool.false_and]
  | true =>
    rw [if_pos rfl]
    have hfinished := fun (l : Fin N) (hl : l.val < count) =>
      finished b junk hm hl (hready hpack l hl)
    unfold decomposed at hfinished
    generalize decomposeLanes o b N m count _ _ = d at hfinished ⊢
    have hlanes := fun (l : Fin N) (hl : l.val < count) => hf l.val hl ▸ hfinished l hl
    rw [hpack, Bool.true_and] at hall
    suffices h : Written b m first f out (List.range count) (fun l => finiteS x (f (first + l))) _ from
      ⟨h.ok.trans hall.symm, h.writes, h.complete⟩
    split
    · split
      · rename_i _ hwide
        exact blocks_written hlanes hcount hwide.2.1 (Nat.dvd_of_mod_eq_zero hwide.2.2)
      · exact columns_written hlanes hcount
    · rename_i hneed
      exact valuesAndVt_written hlanes hcount (Bool.eq_false_iff.mpr hneed)

end Chunk

/-! ## The batch -/

/-- What makes an item fail: a value that is not finite, or a singular value too great when scaled back. -/
def Fails {D : Type} (o : Floats D) (x : Bits D) (m : Nat) (A : Mat D) : Prop :=
  (∃ col < kN, ∃ row < m, infinite ≤ x.magnitude (A row col)) ∨
    ∃ col < kN, infinite ≤ x.magnitude ((item o x m A).S col)

section Batch

variable {D : Type} {o : Floats D} {x : Bits D} {b : Build} {N m count : Nat} {A : Nat → Mat D}
  {storage : Nat → Packed D} {junk : Nat → Mat (Fin N → D)} {f out new : Nat → Out D}

theorem le_foldl {α : Type} {step : Nat → α → Nat} {p : α → Prop} {c : Nat}
    (h : ∀ s y, c ≤ step s y ↔ c ≤ s ∨ p y) (l : List α) (s : Nat) :
    c ≤ l.foldl step s ↔ c ≤ s ∨ ∃ y ∈ l, p y := by
  induction l generalizing s with
  | nil => simp
  | cons y l ih => rw [List.foldl_cons, ih, h, List.exists_mem_cons_iff, or_assoc]

theorem infinite_le_maximum (A : Mat D) :
    infinite ≤ maximum x m A ↔ ∃ col < kN, ∃ row < m, infinite ≤ x.magnitude (A row col) := by
  have hcol : ∀ s col, infinite ≤ (List.range m).foldl (fun s row => max s (x.magnitude (A row col))) s ↔
      infinite ≤ s ∨ ∃ row ∈ List.range m, infinite ≤ x.magnitude (A row col) :=
    fun s col => le_foldl (p := fun row => infinite ≤ x.magnitude (A row col)) (fun _ _ => le_max_iff) _ s
  have hzero : ¬ infinite ≤ 0 := by decide
  rw [maximum, le_foldl hcol, or_iff_right hzero]
  simp only [List.mem_range]

theorem itemOk_iff (A : Mat D) : itemOk o x m A = true ↔ ¬ Fails o x m A := by
  have hS : finiteS x (item o x m A) = true ↔ ¬ ∃ col < kN, infinite ≤ x.magnitude ((item o x m A).S col) := by
    simp [finiteS]
  rw [itemOk, Bool.and_eq_true, hS, finite, decide_eq_true_iff, ← Nat.not_le, infinite_le_maximum, Fails, not_or]

theorem Writes.complete (h : Writes f out new) {g : Nat} (hg : Complete b m (f g) (out g)) :
    Complete b m (f g) (new g) where
  S col hcol := h.keeps (c := .S col) (hg.S col hcol)
  U hneed row hrow col hcol := h.keeps (c := .U row col) (hg.U hneed row hrow col hcol)
  Vt hneed row hrow col hcol := h.keeps (c := .Vt row col) (hg.Vt hneed row hrow col hcol)

/-- The chunk of an item. -/
theorem chunk_mem (hN : 0 < N) {g : Nat} (hg : g < count) :
    g / N * N ∈ (List.range ((count + N - 1) / N)).map fun c => c * N := by
  refine List.mem_map.mpr ⟨g / N, List.mem_range.mpr ?_, rfl⟩
  rw [Nat.lt_div_iff_mul_lt hN]
  have hle := Nat.div_mul_le_self g N
  omega

theorem mem_chunk (hN : 0 < N) {g : Nat} (hg : g < count) : g % N ∈ List.range (min N (count - g / N * N)) := by
  have hsplit := Nat.div_add_mod' g N
  have hlt := Nat.mod_lt g hN
  rw [List.mem_range]
  omega

theorem svdEconomy8Batch_written (hN : 0 < N) (hm : kN ≤ m) (hm' : m ≤ kSvdBatch8MaxM) (hcount : 1 ≤ count) :
    Written b m 0 (fun g => item o x m (A g)) out (List.range count) (fun g => itemOk o x m (A g))
      (svdEconomy8Batch o x b N m A count storage junk out) := by
  unfold svdEconomy8Batch
  rw [if_neg (by omega)]
  have hchunk : ∀ (out : Nat → Out D) (first : Nat), Written b m first (fun g => item o x m (A g)) out
      (List.range (min N (count - first))) (fun l => itemOk o x m (A (first + l)))
      (svdChunk o x b N m (fun l => A (first + l)) (min N (count - first)) first (storage first) (junk first) out) :=
    fun _ _ => svdChunk_spec hm (Nat.min_le_left _ _) fun _ _ => rfl
  refine ⟨?_, ?_, fun hok g hg => ?_⟩
  · rw [untilFalse_ok (fun out first _ => (hchunk out first).ok), Bool.eq_iff_iff]
    simp only [List.all_eq_true]
    constructor
    · intro h g hg
      have hlt := List.mem_range.mp hg
      have hitem := h _ (chunk_mem hN hlt) _ (mem_chunk hN hlt)
      rwa [Nat.div_add_mod'] at hitem
    · intro h first _ l hl
      have hlt := List.mem_range.mp hl
      exact h _ (List.mem_range.mpr (by omega))
  · exact untilFalse_keeps (P := fun new => Writes (fun g => item o x m (A g)) out new)
      (fun new first _ hw => hw.trans (hchunk new first).writes) Writes.refl
  · have hlt := List.mem_range.mp hg
    rw [Nat.zero_add]
    refine untilFalse_reaches (P := fun new : Nat → Out D => Complete b m (item o x m (A g)) (new g))
      (chunk_mem hN hlt) (fun new first _ _ hnew => (hchunk new first).writes.complete hnew) (fun new hround => ?_) hok
    have hcomplete := (hchunk new (g / N * N)).complete hround _ (mem_chunk hN hlt)
    rwa [Nat.div_add_mod'] at hcomplete

/-- A lane that has converged is not rotated by the sweeps that others need. -/
theorem sweeps_idle (needVt : Bool) (floor : Fin N → D) {c : Columns (Fin N → D) (Fin N → Bool)} {l : Fin N}
    (h : c.active l = false) (n : Nat) :
    let round := sweep (o.lanes N) needVt (fun _ => false) floor
    let last := sweeps (fun c => (round c, (List.finRange N).any (round c).active)) n c
    lane l last.ju = lane l c.ju ∧ lane l last.jv = lane l c.jv ∧ last.active l = false := by
  intro round last
  have hread : read l last = sweeps (fun c => (sweep o.machine needVt false (floor l) c,
      (sweep o.machine needVt false (floor l) c).active)) n (read l c) := sweeps_read n c
  have hactive : (read l c).active = false := h
  suffices hlast : (read l last).ju = (read l c).ju ∧ (read l last).jv = (read l c).jv ∧
      (read l last).active = false from hlast
  cases n with
  | zero => exact ⟨rfl, rfl, h⟩
  | succ n =>
    rw [hread, sweeps, sweep_idle hactive, if_neg Bool.false_ne_true]
    exact ⟨rfl, rfl, rfl⟩

end Batch

/-- Whatever the arithmetic, the width of the vectors, the build and what the arrays hold before: a batch is
refused exactly where an item makes it fail, it writes for an item nothing but what the item alone gives, all of it
where it is not refused, and the sweeps leave a lane without rotations as it is. -/
theorem svdEconomy8Batch_items {D : Type} (o : Floats D) (x : Bits D) (b : Build) (N m count : Nat) (hN : 0 < N)
    (A : Nat → Mat D) (storage : Nat → Packed D) (junk : Nat → Mat (Fin N → D)) (out : Nat → Out D) :
    ((svdEconomy8Batch o x b N m A count storage junk out).2 = false ↔
      m < kN ∨ kSvdBatch8MaxM < m ∨ count < 1 ∨ ∃ g < count, Fails o x m (A g)) ∧
    (∀ g c, ((svdEconomy8Batch o x b N m A count storage junk out).1 g).at c = (out g).at c ∨
      ((svdEconomy8Batch o x b N m A count storage junk out).1 g).at c = (item o x m (A g)).at c) ∧
    ((svdEconomy8Batch o x b N m A count storage junk out).2 = true → ∀ g < count,
      Complete b m (item o x m (A g)) ((svdEconomy8Batch o x b N m A count storage junk out).1 g)) ∧
    ∀ (floor : Fin N → D) (c : Columns (Fin N → D) (Fin N → Bool)) (l : Fin N), c.active l = false → ∀ n,
      let round := sweep (o.lanes N) b.needVt (fun _ => false) floor
      let last := sweeps (fun c => (round c, (List.finRange N).any (round c).active)) n c
      lane l last.ju = lane l c.ju ∧ lane l last.jv = lane l c.jv ∧ last.active l = false := by
  have hidle := fun (floor : Fin N → D) (c : Columns (Fin N → D) (Fin N → Bool)) (l : Fin N)
    (h : c.active l = false) (n : Nat) => sweeps_idle (o := o) b.needVt floor h n
  by_cases hrange : m < kN ∨ kSvdBatch8MaxM < m ∨ count < 1
  · have hsame : svdEconomy8Batch o x b N m A count storage junk out = (out, false) := if_pos hrange
    rw [hsame]
    refine ⟨iff_of_true rfl ?_, fun _ _ => .inl rfl, nofun, hidle⟩
    simp only [← or_assoc] at hrange ⊢
    exact .inl hrange
  · have h : Written b m 0 (fun g => item o x m (A g)) out (List.range count) (fun g => itemOk o x m (A g))
        (svdEconomy8Batch o x b N m A count storage junk out) :=
      svdEconomy8Batch_written hN (by omega) (by omega) (by omega)
    refine ⟨?_, h.writes, fun hok g hg => ?_, hidle⟩
    · have hall : (svdEconomy8Batch o x b N m A count storage junk out).2 = true ↔
          ∀ g < count, ¬ Fails o x m (A g) := by
        rw [h.ok, List.all_eq_true]
        simp only [List.mem_range, itemOk_iff]
      rw [← Bool.not_eq_true, hall, not_forall]
      simp only [not_forall, not_not, exists_prop]
      constructor
      · exact fun hg => .inr (.inr (.inr hg))
      · rintro (hlow | hhigh | hzero | hg)
        · exact absurd (.inl hlow) hrange
        · exact absurd (.inr (.inl hhigh)) hrange
        · exact absurd (.inr (.inr hzero)) hrange
        · exact hg
    · have hcomplete := h.complete hok g (List.mem_range.mpr hg)
      rwa [Nat.zero_add] at hcomplete

/-- Rationals as floats: those from 2¹²⁸ on are not finite, and no other is scaled. -/
def bits : Bits ℚ := ⟨fun q => if |q| < 2 ^ 128 then 0 else infinite, fun _ => 0, fun _ => 0, fun q e => q * 2 ^ e⟩

def build : Build := ⟨4, true, false, true, true, by decide, .inl rfl⟩

/-- Three matrices, with a value in the second one that is not finite. -/
def threeItems : Nat → Mat ℚ := fun g row col => if g = 1 ∧ row = 2 ∧ col = 3 then 2 ^ 128 else g + row * col

theorem svdEconomy8Batch_items_three :
    (svdEconomy8Batch TwscBatch.rationals bits build 2 8 threeItems 3 (fun _ => (fun _ _ _ => 0, fun _ => 0))
      (fun _ _ _ _ => 0) fun _ => ⟨fun _ => 0, fun _ _ => 0, fun _ _ => 0⟩).2 = false :=
  (svdEconomy8Batch_items TwscBatch.rationals bits build 2 8 3 (by decide) threeItems _ _ _).1.mpr
    (.inr (.inr (.inr ⟨1, by decide, .inl ⟨3, by decide, 2, by decide, by decide +kernel⟩⟩)))

end NssFactory.Cpu.SvdBatch8
