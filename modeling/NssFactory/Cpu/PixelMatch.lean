import NssFactory.Cpu.Bm4dSlabs
import NssFactory.Cpu.JointMatch

/-!
# NLH's pixel matching

`PixelMatch` of `src/cpu/nlh/pixel_match.cpp`: for each row of a group the `q` nearest rows, by one
of three strategies, `wholeRows`, `pairMatrix` and `upperTriangle`. The arithmetic of the distances is a
parameter (`Squares`).
-/

namespace NssFactory.Cpu.Pixel

open Function

/-- `1.0e30f` -/
def kInf : F32 := 0x7149f2ca#32

/-- `==` of floats -/
def feq (a b : F32) : Bool := !a.isNaN && !b.isNaN && decide (a.value = b.value)

/-- `hn::Min`, NaN apart, where the targets differ. -/
def vmin (a b : F32) : F32 := if a.lt b then a else b

/-- The arithmetic of the squared distances. -/
structure Squares where
  sub : F32 → F32 → F32
  mulAdd : F32 → F32 → F32 → F32
  /-- The sign of a difference does not matter to its square. -/
  swap : ∀ a b acc, mulAdd (sub a b) (sub a b) acc = mulAdd (sub b a) (sub b a) acc
  running : ∀ {e acc}, Bm4d.Running acc → Bm4d.Running (mulAdd e e acc)

/-- A group of `m` rows of `n` pixels, stored by columns. -/
structure Group where
  m : Nat
  n : Nat
  lda : Nat
  value : Nat → F32

/-- An entry of `best_dist` and `best_idx`. -/
structure Slot where
  dist : F32
  index : Nat
  deriving DecidableEq, Repr

section Model

variable (ops : Squares) (g : Group)

/-! ## Distances -/

/-- `hn::StoreN` of `count` lanes. -/
def storeN (v : Nat → F32) (out : Nat → F32) (pos count : Nat) : Nat → F32 :=
  fun i => if pos ≤ i ∧ i < pos + count then v (i - pos) else out i

/-- `hn::LoadN` -/
def loadN (v : Nat → F32) (pos count : Nat) : Nat → F32 := fun i => if i < count then v (pos + i) else F32.zero

/-- The accumulators of the loop over the columns, `count k` lanes of each loaded. -/
def accumulate (lanes r s0 : Nat) (count : Nat → Nat) : Nat → Nat → F32 :=
  (List.range g.n).foldl (fun acc c k i =>
    let e := ops.sub (loadN g.value (c * g.lda + s0 + k * lanes) (count k) i) (g.value (r + c * g.lda))
    ops.mulAdd e e (acc k i)) fun _ _ => F32.zero

/-- `SsdRemainder<K>` -/
def ssdRemainder (lanes K r s0 tail : Nat) (out : Nat → F32) : Nat → F32 :=
  let acc := accumulate ops g lanes r s0 fun k => if k < K then lanes else tail
  let out := (List.range K).foldl (fun out k => storeN (acc k) out (s0 + k * lanes) lanes) out
  if tail ≠ 0 then storeN (acc K) out (s0 + K * lanes) tail else out

/-- `ssd_from`: the distances of row `r` from the rows `s0` on. -/
def ssdFrom (lanes r s0 : Nat) (out : Nat → F32) : Nat → F32 :=
  let blocks := (g.m - s0) / (4 * lanes)
  let out := (List.range blocks).foldl (fun out b =>
    let acc := accumulate ops g lanes r (s0 + b * (4 * lanes)) fun _ => lanes
    (List.range 4).foldl (fun out k => storeN (acc k) out (s0 + b * (4 * lanes) + k * lanes) lanes) out) out
  let s0 := s0 + blocks * (4 * lanes)
  if g.m ≤ s0 then out else ssdRemainder ops g lanes ((g.m - s0) / lanes) r s0 ((g.m - s0) % lanes) out

/-! ## Insertion -/

/-- `better` -/
def better (a b : Slot) : Bool := a.dist.lt b.dist || feq a.dist b.dist && decide (a.index < b.index)

/-- `insert`, on the slots behind the row's own. -/
def insertSlot (qq : Nat) (slots : List Slot) (new : Slot) : List Slot :=
  if qq ≤ 1 then slots
  else if qq = 4 then
    match slots with
    | [b1, b2, b3] =>
      if !better new b3 then [b1, b2, b3]
      else if better new b1 then [new, b1, b2]
      else if better new b2 then [b1, new, b2]
      else [b1, b2, new]
    | _ => slots
  else
    match slots[qq - 2]? with
    | some last => if !better new last then slots else shiftDown better new (qq - 2) slots
    | none => slots

/-! ## Selection -/

/-- `hn::ReduceMin` -/
def reduceMin (lanes : Nat) (v : Nat → F32) : F32 :=
  (List.range (lanes - 1)).foldl (fun best i => vmin best (v (i + 1))) (v 0)

/-- The least of a row's distances, by four running minima. -/
def leastDistance (lanes m : Nat) (dist : Nat → F32) : F32 :=
  let fours := m / (4 * lanes)
  let v := fun k => (List.range fours).foldl (fun v t i => vmin (v i) (dist (t * (4 * lanes) + k * lanes + i))) fun _ => kInf
  let j := fours * (4 * lanes)
  let ones := (m - j) / lanes
  let v0 := (List.range ones).foldl (fun v t i => vmin (v i) (dist (j + t * lanes + i))) (v 0)
  let best := reduceMin lanes fun i => vmin (vmin (v0 i) (v 1 i)) (vmin (v 2 i) (v 3 i))
  let j := j + ones * lanes
  (List.range' j (m - j)).foldl (fun best j => if (dist j).lt best then dist j else best) best

/-- The first place of the least distance, `m` when there is none. -/
def placeOf (lanes m : Nat) (dist : Nat → F32) (best : F32) : Nat :=
  match (List.range (m / lanes)).findSome? fun t =>
      ((List.range lanes).find? fun i => feq (dist (t * lanes + i)) best).map (t * lanes + ·) with
  | some s => s
  | none =>
    let j := m / lanes * lanes
    ((List.range' j (m - j)).find? fun j => feq (dist j) best).getD m

/-- The rounds of `select_row`: what they select, and the distances they leave. -/
def selectSlots (lanes m : Nat) : Nat → (Nat → F32) → List Slot × (Nat → F32)
  | 0, dist => ([], dist)
  | k + 1, dist =>
    let best := leastDistance lanes m dist
    let s := placeOf lanes m dist best
    if !best.lt kInf || decide (m ≤ s) then ([], dist)
    else
      let (slots, dist) := selectSlots lanes m k (update dist s kInf)
      (⟨best, s⟩ :: slots, dist)

/-- A lane of `SelectTopThree64`. -/
structure Lane where
  a : Slot
  b : Slot
  c : Slot
  bounded : Bool

def absent : Slot := ⟨kInf, 64⟩

/-- What a value changes in its lane. -/
def Lane.take (self : Nat) (lane : Lane) (value : F32) (index : Nat) : Lane :=
  let bounded := lane.bounded && decide (value.toNat < kInf.toNat)
  let value := if index = self then kInf else value
  let first := value.lt lane.a.dist
  let second := value.lt lane.b.dist
  let third := value.lt lane.c.dist
  { c := if second then lane.b else if third then ⟨value, index⟩ else lane.c
    b := if first then lane.a else if second then ⟨value, index⟩ else lane.b
    a := if first then ⟨value, index⟩ else lane.a
    bounded := bounded }

/-- A round of the loop over the slots. -/
def takeSlot (lanes : Nat) (lane : Nat → Lane) : Slot × (Nat → Lane) :=
  let best := reduceMin lanes fun i => (lane i).a.dist
  let tied := fun i => if feq (lane i).a.dist best then (lane i).a.index else 64
  let index := (List.range (lanes - 1)).foldl (fun index i => min index (tied (i + 1))) (tied 0)
  (⟨best, index⟩, fun i =>
    if (lane i).a.index = index then { lane i with a := (lane i).b, b := (lane i).c, c := absent } else lane i)

/-- `SelectTopThree64` -/
def selectTopThree64 (lanes : Nat) (dist : Nat → F32) (self : Nat) : Option (List Slot) :=
  let lane := (List.range ((64 + lanes - 1) / lanes)).foldl (fun lane t i =>
    (lane i).take self (dist (t * lanes + i)) (t * lanes + i)) fun _ => ⟨absent, absent, absent, true⟩
  if !(List.range lanes).all fun i => (lane i).bounded then none
  else
    let (first, lane) := takeSlot lanes lane
    let (second, lane) := takeSlot lanes lane
    let (third, _) := takeSlot lanes lane
    some [first, second, third]

/-- `select_row`: the slots behind the row's own, and the distances it leaves. -/
def selectRow (target : Target) (qq r : Nat) (slots : List Slot) (dist : Nat → F32) : List Slot × (Nat → F32) :=
  let lanes := target.lanes.toNat
  let top :=
    if (target = .avx3 ∨ target = .avx2) ∧ g.m = 64 ∧ g.n = 16 ∧ qq = 4 then selectTopThree64 lanes dist r else none
  match top with
  | some three => (three ++ slots.drop 3, dist)
  | none =>
    let (found, dist) := selectSlots lanes g.m (qq - 1) (update dist r kInf)
    (found ++ slots.drop found.length, dist)

/-! ## The strategies -/

/-- The slots behind the rows' own before anything is found. -/
def start (qq : Nat) : Nat → List Slot := fun r => List.replicate (qq - 1) ⟨kInf, r⟩

/-- Whether the bits of every distance are below those of `kInf`. -/
def allBelow (lanes m : Nat) (dist : Nat → F32) : Bool :=
  let s := m / lanes * lanes
  (List.range (m / lanes)).all (fun t => (List.range lanes).all fun i =>
    decide ((dist (t * lanes + i)).toNat < kInf.toNat)) &&
  (decide (m ≤ s) || (List.range lanes).all fun i => decide ((loadN dist s (m - s) i).toNat < kInf.toNat))

/-- `insert` into a row of the table. -/
def insertAt (qq : Nat) (best : Nat → List Slot) (row : Nat) (new : Slot) : Nat → List Slot :=
  update best row (insertSlot qq (best row) new)

/-- A row of the selection from whole rows. -/
def wholeRow (target : Target) (qq : Nat) (s : (Nat → List Slot) × (Nat → F32)) (r : Nat) :
    (Nat → List Slot) × (Nat → F32) :=
  let lanes := target.lanes.toNat
  let pair := ssdFrom ops g lanes r 0 s.2
  if allBelow lanes g.m pair then
    let (slots, pair) := selectRow g target qq r (s.1 r) pair
    (update s.1 r slots, pair)
  else
    ((List.range g.m).foldl (fun best s => if s ≠ r then insertAt qq best r ⟨pair s, s⟩ else best) s.1, pair)

def wholeRows (target : Target) (qq : Nat) (pair : Nat → F32) : Nat → List Slot :=
  ((List.range g.m).foldl (wholeRow ops g target qq) (start qq, pair)).1

/-- A row of the matrix and the column of the same distances. -/
def fillRow (target : Target) (dist : Nat → Nat → F32) (r : Nat) : Nat → Nat → F32 :=
  let row := update (ssdFrom ops g target.lanes.toNat r (r + 1) (dist r)) r F32.zero
  (List.range' (r + 1) (g.m - (r + 1))).foldl (fun dist s => update dist s (update (dist s) r (dist r s)))
    (update dist r row)

def pairMatrix (target : Target) (qq : Nat) (dist : Nat → Nat → F32) : Nat → List Slot :=
  let dist := (List.range g.m).foldl (fillRow ops g target) dist
  ((List.range g.m).foldl (fun (s : (Nat → List Slot) × (Nat → Nat → F32)) r =>
    let (slots, row) := selectRow g target qq r (s.1 r) (s.2 r)
    (update s.1 r slots, update s.2 r row)) (start qq, dist)).1

/-- A row of the upper triangle. -/
def triangleRow (target : Target) (qq : Nat) (s : (Nat → List Slot) × (Nat → F32)) (r : Nat) :
    (Nat → List Slot) × (Nat → F32) :=
  let pair := ssdFrom ops g target.lanes.toNat r (r + 1) s.2
  ((List.range' (r + 1) (g.m - (r + 1))).foldl (fun best s =>
    insertAt qq (insertAt qq best r ⟨pair s, s⟩) s ⟨pair s, r⟩) s.1, pair)

def upperTriangle (target : Target) (qq : Nat) (pair : Nat → F32) : Nat → List Slot :=
  ((List.range g.m).foldl (triangleRow ops g target qq) (start qq, pair)).1

/-! ## The whole function -/

/-- The rows written for row `r`. -/
def written (q : Nat) (best : Nat → List Slot) (r : Nat) : List Nat :=
  let found := r :: (best r).map Slot.index
  found ++ List.replicate (q - min q g.m) r

/-- `PixelMatch`; `none` where it writes nothing. The scratch is `pair` or `dist`. -/
def pixelMatch (target : Target) (q : Nat) (pair : Nat → F32) (dist : Nat → Nat → F32) : Option (Nat → List Nat) :=
  if g.m < 1 ∨ g.n < 1 ∨ q < 1 ∨ g.lda < g.m then none
  else
    let qq := min q g.m
    let best :=
      if target = .avx3 ∧ 64 < g.m ∧ g.m ≤ 256 ∧ 8 ≤ g.n ∧ g.n ≤ 64 ∧ qq ≤ 16 ∧ 1 < qq then
        wholeRows ops g target qq pair
      else if g.m ≤ 64 ∧ 1 < qq then pairMatrix ops g target qq dist
      else upperTriangle ops g target qq pair
    some (written g q best)

end Model

end NssFactory.Cpu.Pixel
