import Mathlib.Algebra.Order.Ring.Abs
import Mathlib.Algebra.Order.Field.Rat
import NssFactory.Lib.Vectors

/-!
# The SVD of TWSC in lanes

`qr_svd` decomposes one group: a Householder QR of the group or of its transpose, one-sided Jacobi
rotations of the triangular factor, the columns sorted by their norms and the reflectors applied to
the left factor. `TwscSvd64Batch` does the same for as many groups as a vector has lanes, where a
conditional step of one group is masked arithmetic in all lanes. `valid_svd` checks a decomposition
and `TwscValidSvdLanes` does it for as many rows, or columns, at once.

Double arithmetic is left open. Matrices are functions of the row and the column of their
column-major storage.
-/

namespace NssFactory.Cpu.TwscBatch

open Vectors

/-- The factors that a workspace holds after a decomposition. -/
structure Factors (D : Type) where
  dictionary : Mat D
  singular : Nat → D
  vt : Mat D

/-! ## Shared steps -/

section Shared

variable {E : Type} (a : Arith E)

/-- `dot = x[k + j * rows]; ...; x[k + j * rows] -= dot; ...`, with the reflector in rows `k + 1` on of `h`. -/
def reflect (rows k : Nat) (h : Nat → E) (tau : E) (x : Mat E) (j : Nat) : Mat E :=
  let dot := a.mul (products a (indices (k + 1) rows) h (fun i => x i j) (x k j)) tau
  (indices (k + 1) rows).foldl (fun x i => put x i j (a.sub (x i j) (a.mul (h i) dot)))
    (put x k j (a.sub (x k j) dot))

/-- Column `k` of the QR from its factors, and the reflector on the columns behind it. -/
def eliminate (rows r k : Nat) (inverse diagonal tau : E) (qr : Mat E) : Mat E :=
  let qr := (indices (k + 1) rows).foldl (fun qr i => put qr i k (a.mul (qr i k) inverse)) qr
  let qr := put qr k k diagonal
  (indices (k + 1) r).foldl (reflect a rows k (fun i => qr i k) tau) qr

/-- The triangle that the rotations start from. -/
def triangle (r : Nat) (qr : Mat E) : Mat E :=
  (List.range r).foldl (fun b j => (indices 0 (j + 1)).foldl (fun b i => put b i j (qr i j)) b)
    fun _ _ => a.zero

def identity (r : Nat) : Mat E :=
  (List.range r).foldl (fun v j => put v j j a.one) fun _ _ => a.zero

/-- `c` and `s` of a rotation, from `aqq - app` and `2 apq`. -/
def rotation (delta den : E) : E × E :=
  let z := a.div delta den
  let t := a.div (a.copySign a.one z) (a.add (a.abs z) (a.sqrt (a.add a.one (a.mul z z))))
  let c := a.div a.one (a.sqrt (a.add a.one (a.mul t t)))
  (c, a.mul t c)

/-- Columns `p` and `q` turned; `pick` takes the new element or keeps the old one. -/
def rotateRow (pick : E → E → E) (c s : E) (p q : Nat) (b : Mat E) (i : Nat) : Mat E :=
  let x := b i p
  let y := b i q
  put (put b i p (pick (a.sub (a.mul c x) (a.mul s y)) x)) i q (pick (a.add (a.mul s x) (a.mul c y)) y)

def rotateColumns (pick : E → E → E) (r : Nat) (c s : E) (p q : Nat) (bv : Mat E × Mat E) : Mat E × Mat E :=
  (List.range r).foldl (fun bv i => (rotateRow a pick c s p q bv.1 i, rotateRow a pick c s p q bv.2 i)) bv

/-- The pairs of a sweep, in their order. -/
def pairs (r : Nat) : List (Nat × Nat) :=
  (List.range (r - 1)).flatMap fun p => (indices (p + 1) r).map fun q => (p, q)

end Shared

section Scalar

variable {D : Type} (o : Floats D)

/-- `2^-e` with the exponent `e` that `frexp` finds; `frexp` and `ldexp` are left open. -/
structure Exponents (D : Type) where
  frexp : D → Int
  ldexp : D → Int → D

variable (x : Exponents D)

def scaleOf (maximum : D) : D := x.ldexp o.one (-(if o.lt o.zero maximum then x.frexp maximum else 0))

def swapColumns (r : Nat) (m : Mat D) (j best : Nat) : Mat D :=
  (List.range r).foldl (fun m i => put (put m i j (m i best)) i best (m i j)) m

/-- Column `j` exchanged for the first of the greatest from `j` on. -/
def selectColumn (r : Nat) (s : (Nat → D) × Mat D × Mat D) (j : Nat) : (Nat → D) × Mat D × Mat D :=
  let best := (indices (j + 1) r).foldl (fun best k => if o.lt (s.1 best) (s.1 k) then k else best) j
  if best = j then s
  else (Function.update (Function.update s.1 j (s.1 best)) best (s.1 j),
    swapColumns r s.2.1 j best, swapColumns r s.2.2 j best)

def sortColumns (r : Nat) (s : (Nat → D) × Mat D × Mat D) : (Nat → D) × Mat D × Mat D :=
  (List.range r).foldl (selectColumn o r) s

/-- What is left in the workspace. -/
def factors (transposed : Bool) (scale : D) (singular : Nat → D) (u v : Mat D) : Factors D where
  dictionary i k := if o.eq (singular k) o.zero then o.zero else if transposed then v i k else u i k
  singular k := o.div (singular k) scale
  vt k j := if o.eq (singular k) o.zero then o.zero else if transposed then u j k else v j k

/-! ## One group -/

/-- Column `k` of the QR: the factor with the reflectors below it, and `tau`. -/
def householder (rows r : Nat) (s : Mat D × (Nat → D)) (k : Nat) : Mat D × (Nat → D) :=
  let qr := s.1
  let norm2 := products o.toArith (indices k rows) (fun i => qr i k) (fun i => qr i k) o.zero
  if o.eq norm2 o.zero then s
  else
    let x := qr k k
    let alpha := o.neg (o.copySign (o.sqrt norm2) x)
    let inverse := o.div o.one (o.sub x alpha)
    let tau := o.div (o.sub alpha x) alpha
    (eliminate o.toArith rows r k inverse alpha tau qr, Function.update s.2 k tau)

def initialNorm (r : Nat) (qr : Mat D) : D :=
  (List.range r).foldl (fun norm j =>
    o.stdMax norm (products o.toArith (indices 0 (j + 1)) (fun i => qr i j) (fun i => qr i j) o.zero)) o.zero

def floorFactor : ℚ := 1 / 10 ^ 14

def tolerance : ℚ := 1 / 10 ^ 6

/-- A pair of a sweep; the flag says whether there was a rotation. -/
def jacobiPair (r : Nat) (rankFloor : D) (s : (Mat D × Mat D) × Bool) (pq : Nat × Nat) :
    (Mat D × Mat D) × Bool :=
  let b := s.1.1
  let app := products o.toArith (List.range r) (fun i => b i pq.1) (fun i => b i pq.1) o.zero
  let aqq := products o.toArith (List.range r) (fun i => b i pq.2) (fun i => b i pq.2) o.zero
  let apq := products o.toArith (List.range r) (fun i => b i pq.1) (fun i => b i pq.2) o.zero
  if o.le app rankFloor || o.le aqq rankFloor ||
      o.le (o.abs apq) (o.mul (o.lit tolerance) (o.sqrt (o.mul app aqq))) then s
  else
    let cs := rotation o.toArith (o.sub aqq app) (o.mul (o.lit 2) apq)
    (rotateColumns o.toArith (fun new _ => new) r cs.1 cs.2 pq.1 pq.2 s.1, true)

def sweep (r : Nat) (rankFloor : D) (bv : Mat D × Mat D) : (Mat D × Mat D) × Bool :=
  (pairs r).foldl (jacobiPair o r rankFloor) (bv, false)

def singularOf (r : Nat) (rankFloor : D) (b : Mat D) (j : Nat) : D :=
  let norm := products o.toArith (List.range r) (fun i => b i j) (fun i => b i j) o.zero
  if o.lt rankFloor norm then o.sqrt norm else o.zero

/-- The left vectors of the triangle. -/
def leftVectors (r : Nat) (singular : Nat → D) (b : Mat D) : Mat D :=
  (List.range r).foldl (fun u j =>
    if o.lt o.zero (singular j) then
      (List.range r).foldl (fun u i => put u i j (o.div (b i j) (singular j))) u
    else u) fun _ _ => o.zero

/-- The reflectors, last one first. -/
def replay (rows r : Nat) (qr : Mat D) (tau : Nat → D) (u : Mat D) : Mat D :=
  (List.range r).reverse.foldl (fun u k =>
    if o.eq (tau k) o.zero then u
    else (List.range r).foldl (reflect o.toArith rows k (fun i => qr i k) (tau k)) u) u

/-- The singular values of the triangle in `qr`, its rotated columns and the rotations, sorted. -/
def rotated (r : Nat) (rankFloor : D) (qr : Mat D) : (Nat → D) × Mat D × Mat D :=
  let bv := sweeps (sweep o r rankFloor) 128 (triangle o.toArith r qr, identity o.toArith r)
  sortColumns o r (singularOf o r rankFloor bv.1, bv.1, bv.2)

/-- The decomposition of the scaled group. -/
def decompose (m n : Nat) (a : Mat D) (scale : D) : Factors D :=
  let rows := max m n
  let r := min m n
  let transposed := decide (m < n)
  let qr : Mat D := fun i j => o.mul (if transposed then a j i else a i j) scale
  let s := (List.range r).foldl (householder o rows r) (qr, fun _ => o.zero)
  let rankFloor := o.mul (initialNorm o r s.1) (o.lit floorFactor)
  let t := rotated o r rankFloor s.1
  let u := replay o rows r s.1 s.2 (leftVectors o r t.1 t.2.1)
  factors o transposed scale t.1 u t.2.2

/-- `qr_svd` in double precision, none where it returns false. -/
def qrSvd (m n : Nat) (a : Mat D) : Option (Factors D) := do
  let maximum ← (List.range n).foldlM (fun maximum j => (List.range m).foldlM (fun maximum i =>
    if o.isFinite (a i j) then some (o.stdMax maximum (o.abs (a i j))) else none) maximum) o.zero
  return decompose o m n a (scaleOf o x maximum)

end Scalar

/-! ## A group in each lane -/

section Lanes

variable {D : Type} (o : Floats D) (x : Exponents D) (N : Nat)

/-- `Gt` -/
def gt (y z : Fin N → D) : Fin N → Bool := fun l => o.lt (z l) (y l)

def householderLanes (rows r : Nat) (s : Mat (Fin N → D) × (Nat → Fin N → D)) (k : Nat) :
    Mat (Fin N → D) × (Nat → Fin N → D) :=
  let v := o.toArith.lanes N
  let qr := s.1
  let norm := products v (indices k rows) (fun i => qr i k) (fun i => qr i k) v.zero
  let active := gt o N norm v.zero
  let x := qr k k
  let alpha := v.neg (v.copySign (v.sqrt norm) x)
  let inv := v.div v.one (select active (v.sub x alpha) v.one)
  let tk := select active (v.div (v.sub alpha x) (select active alpha v.one)) v.zero
  (eliminate v rows r k inv (select active alpha x) tk qr, Function.update s.2 k tk)

def initialLanes (r : Nat) (qr : Mat (Fin N → D)) : Fin N → D :=
  let v := o.toArith.lanes N
  (List.range r).foldl (fun norm j =>
    v.max norm (products v (indices 0 (j + 1)) (fun i => qr i j) (fun i => qr i j) v.zero)) v.zero

/-- The lanes that a pair is rotated in. -/
def turned (rankFloor app aqq apq : Fin N → D) : Fin N → Bool :=
  let v := o.toArith.lanes N
  fun l => gt o N app rankFloor l && gt o N aqq rankFloor l &&
    gt o N (v.abs apq) (v.mul (v.lit tolerance) (v.sqrt (v.mul app aqq))) l

def jacobiPairLanes (r : Nat) (rankFloor : Fin N → D)
    (s : (Mat (Fin N → D) × Mat (Fin N → D)) × Bool) (pq : Nat × Nat) :
    (Mat (Fin N → D) × Mat (Fin N → D)) × Bool :=
  let v := o.toArith.lanes N
  let b := s.1.1
  let app := products v (List.range r) (fun i => b i pq.1) (fun i => b i pq.1) v.zero
  let aqq := products v (List.range r) (fun i => b i pq.2) (fun i => b i pq.2) v.zero
  let apq := products v (List.range r) (fun i => b i pq.1) (fun i => b i pq.2) v.zero
  let active := turned o N rankFloor app aqq apq
  if (List.finRange N).all fun l => !active l then s
  else
    let cs := rotation v (v.sub aqq app) (select active (v.mul (v.lit 2) apq) v.one)
    (rotateColumns v (select active) r cs.1 cs.2 pq.1 pq.2 s.1, true)

def sweepLanes (r : Nat) (rankFloor : Fin N → D) (bv : Mat (Fin N → D) × Mat (Fin N → D)) :
    (Mat (Fin N → D) × Mat (Fin N → D)) × Bool :=
  (pairs r).foldl (jacobiPairLanes o N r rankFloor) (bv, false)

def singularLanes (r : Nat) (rankFloor : Fin N → D) (b : Mat (Fin N → D)) (j : Nat) : Fin N → D :=
  let v := o.toArith.lanes N
  let norm := products v (List.range r) (fun i => b i j) (fun i => b i j) v.zero
  select (gt o N norm rankFloor) (v.sqrt norm) v.zero

/-- A scalar loop over one lane of the storage. -/
def sortLane (r : Nat) (s : (Nat → Fin N → D) × Mat (Fin N → D) × Mat (Fin N → D)) (l : Fin N) :
    (Nat → Fin N → D) × Mat (Fin N → D) × Mat (Fin N → D) :=
  let t := sortColumns o r (fun k => s.1 k l, lane l s.2.1, lane l s.2.2)
  (fun k => Function.update (s.1 k) l (t.1 k), fun i j => Function.update (s.2.1 i j) l (t.2.1 i j),
    fun i j => Function.update (s.2.2 i j) l (t.2.2 i j))

def leftLanes (r : Nat) (singular : Nat → Fin N → D) (b : Mat (Fin N → D)) : Mat (Fin N → D) :=
  let v := o.toArith.lanes N
  (List.range r).foldl (fun u j =>
    let active := gt o N (singular j) v.zero
    let den := select active (singular j) v.one
    (List.range r).foldl (fun u i => put u i j (select active (v.div (b i j) den) v.zero)) u) fun _ _ => v.zero

def replayLanes (rows r : Nat) (qr : Mat (Fin N → D)) (tau : Nat → Fin N → D) (u : Mat (Fin N → D)) :
    Mat (Fin N → D) :=
  (List.range r).reverse.foldl (fun u k =>
    (List.range r).foldl (reflect (o.toArith.lanes N) rows k (fun i => qr i k) (tau k)) u) u

def rotatedLanes (r : Nat) (rankFloor : Fin N → D) (qr : Mat (Fin N → D)) :
    (Nat → Fin N → D) × Mat (Fin N → D) × Mat (Fin N → D) :=
  let v := o.toArith.lanes N
  let bv := sweeps (sweepLanes o N r rankFloor) 128 (triangle v r qr, identity v r)
  (List.finRange N).foldl (sortLane o N r) (singularLanes o N r rankFloor bv.1, bv.1, bv.2)

/-- The groups `input` of a vector. -/
def decomposeLanes (m n : Nat) (input : Fin N → Nat → D) : Fin N → Factors D :=
  let rows := max m n
  let r := min m n
  let transposed := decide (m < n)
  let scales : Fin N → D := fun l =>
    scaleOf o x ((List.range (m * n)).foldl (fun maximum i => o.stdMax maximum (o.abs (input l i))) o.zero)
  let qr : Mat (Fin N → D) := fun i j l => o.mul (input l (if transposed then j + i * m else i + j * m)) (scales l)
  let s := (List.range r).foldl (householderLanes o N rows r) (qr, fun _ _ => o.zero)
  let v := o.toArith.lanes N
  let rankFloor := v.mul (initialLanes o N r s.1) (v.lit floorFactor)
  let t := rotatedLanes o N r rankFloor s.1
  let u := replayLanes o N rows r s.1 s.2 (leftLanes o N r t.1 t.2.1)
  fun l => factors o transposed (scales l) (fun k => t.1 k l) (lane l u) (lane l t.2.2)

structure Workspace (D : Type) where
  input : Nat → D
  factors : Factors D

/-- What the lanes take from `start` on; the last group fills what is left. -/
def inputs (count : Nat) (work : Nat → Workspace D) (start : Nat) : Fin N → Nat → D :=
  fun l => (work (start + min l.val (min N (count - start) - 1))).input

/-- The groups from `start` on, as many as there are lanes. -/
def chunk (m n count : Nat) (work : Nat → Workspace D) (start : Nat) : Nat → Workspace D :=
  let real := min N (count - start)
  let done := decomposeLanes o x N m n (inputs N count work start)
  (List.finRange N).foldl (fun work (l : Fin N) =>
    if l.val < real then Function.update work (start + l) ⟨(work (start + l)).input, done l⟩ else work) work

/-- `TwscSvd64Batch` -/
def twscSvd64Batch (m n count : Nat) (work : Nat → Workspace D) : Nat → Workspace D :=
  ((List.range ((count + N - 1) / N)).map fun c => c * N).foldl (chunk o x N m n count) work

end Lanes

/-! ## The check of a decomposition -/

section Validation

variable {D : Type} (o : Floats D) (N m n : Nat) (a : Mat D) (w : Factors D)

/-- An entry of the product of the factors. -/
def entry (i j : Nat) : D :=
  (List.range (min m n)).foldl
    (fun x k => o.add x (o.mul (o.mul (w.dictionary i k) (w.singular k)) (w.vt k j))) o.zero

/-- The squared error and the squared norm with one entry more; none where false is returned. -/
def compare (s : D × D) (x y : D) : Option (D × D) :=
  if o.isFinite x then some (o.add s.1 (o.mul (o.sub x y) (o.sub x y)), o.add s.2 (o.mul y y)) else none

/-- The greater of `orthogonal` and what both dot products differ from `diagonal`. -/
def deviation (orthogonal diagonal u v : D) : D :=
  o.stdMax (o.stdMax orthogonal (o.abs (o.sub u diagonal))) (o.abs (o.sub v diagonal))

def diagonal (j k : Nat) : D := if j = k then o.one else o.zero

/-- What both functions return for the sums and for `orthogonal`. -/
def accepts (sums : Option (D × D)) (orthogonal : D) : Bool :=
  match sums with
  | none => false
  | some (error, norm) =>
    o.le error (o.mul norm (o.lit (25 / 10 ^ 10))) && o.le orthogonal (o.lit (5 / 10 ^ 4))

def column (s : D × D) (j : Nat) : Option (D × D) :=
  (List.range m).foldlM (fun s i => compare o s (entry o m n w i j) (a i j)) s

def pair (j : Nat) (orthogonal : D) (k : Nat) : D :=
  if o.lt o.zero (w.singular k) then
    deviation o orthogonal (diagonal o j k)
      (products o.toArith (List.range m) (fun i => w.dictionary i j) (fun i => w.dictionary i k) o.zero)
      (products o.toArith (List.range n) (fun i => w.vt j i) (fun i => w.vt k i) o.zero)
  else orthogonal

/-- The body of `valid_svd`. -/
def validSvd : Bool :=
  accepts o ((List.range n).foldlM (column o m n a w) (o.zero, o.zero))
    ((List.range (min m n)).foldl (fun orthogonal j =>
      if o.lt o.zero (w.singular j) then (List.range (j + 1)).foldl (pair o m n w j) orthogonal else orthogonal)
      o.zero)

/-- Entries `i` on of column `j`. -/
def entryLanes (i j : Nat) : Fin N → D :=
  let v := o.toArith.lanes N
  (List.range (min m n)).foldl (fun x k => v.add x (v.mul (v.mul (fun l => w.dictionary (i + l) k)
    fun _ => w.singular k) fun _ => w.vt k j)) v.zero

def columnLanes (s : D × D) (j : Nat) : Option (D × D) := do
  let s ← (Tiles.starts N 0 m).foldlM (fun s i =>
    let x := entryLanes o N m n w i j
    (List.finRange N).foldlM (fun s (l : Fin N) => compare o s (x l) (a (i + l) j)) s) s
  (List.range' (Tiles.stop N 0 m) (m - Tiles.stop N 0 m)).foldlM
    (fun s i => compare o s (entry o m n w i j) (a i j)) s

/-- Columns `k` on with column `j`. -/
def pairLanes (j : Nat) (orthogonal : D) (k : Nat) : D :=
  let v := o.toArith.lanes N
  let first := products v (List.range m) (fun i _ => w.dictionary i j) (fun i l => w.dictionary i (k + l)) v.zero
  let second := products v (List.range n) (fun i _ => w.vt j i) (fun i l => w.vt (k + l) i) v.zero
  (List.finRange N).foldl (fun orthogonal (l : Fin N) =>
    if o.lt o.zero (w.singular (k + l)) then
      deviation o orthogonal (diagonal o j (k + l)) (first l) (second l)
    else orthogonal) orthogonal

/-- `TwscValidSvdLanes` -/
def twscValidSvdLanes : Bool :=
  accepts o ((List.range n).foldlM (columnLanes o N m n a w) (o.zero, o.zero))
    ((List.range (min m n)).foldl (fun orthogonal j =>
      if o.lt o.zero (w.singular j) then
        (List.range' (Tiles.stop N 0 (j + 1)) (j + 1 - Tiles.stop N 0 (j + 1))).foldl (pair o m n w j)
          ((Tiles.starts N 0 (j + 1)).foldl (pairLanes o N m n w j) orthogonal)
      else orthogonal) o.zero)

/-- `twsc_valid_svd`, by lanes where the target has them and the shape pays for it. -/
def twscValidSvd (lanesAvailable : Bool) : Bool :=
  if ((n = 8 ∧ 8 ≤ m) ∨ (16 ≤ n ∧ 16 ≤ min m n)) ∧ lanesAvailable then twscValidSvdLanes o N m n a w
  else validSvd o m n a w

end Validation

/-! ## A lane is the group alone -/

/-- What is used of the arithmetic of a finite group, the signs of zeros aside. -/
structure Laws {D : Type} (o : Floats D) : Prop where
  mul_one : ∀ x, o.mul x o.one = x
  one_div : o.div o.one o.one = o.one
  mul_zero : ∀ x, o.mul x o.zero = o.zero
  sub_zero : ∀ x, o.sub x o.zero = x
  irrefl : ∀ x, o.lt x x = false
  antisymm : ∀ x y, o.lt x y = false → o.lt y x = false → x = y
  le_eq : ∀ x y, o.le x y = !o.lt y x
  eq_zero : ∀ x, o.eq x o.zero = true ↔ x = o.zero
  max_eq : ∀ x y, o.max x y = o.stdMax x y
  square : ∀ x, o.lt (o.mul x x) o.zero = false
  add : ∀ x y, o.lt x o.zero = false → o.lt y o.zero = false → o.lt (o.add x y) o.zero = false

section Proofs

variable {D : Type} {o : Floats D} {N rows r k : Nat} {l : Fin N}

theorem squares_nonneg (laws : Laws o) (is : List Nat) (f : Nat → D) {first : D} (h : o.lt first o.zero = false) :
    o.lt (products o.toArith is f f first) o.zero = false := by
  induction is generalizing first with
  | nil => exact h
  | cons i is ih => exact ih (laws.add _ _ h (laws.square _))

/-- A sum of squares is positive, or zero. -/
theorem positive_iff (laws : Laws o) {x : D} (h : o.lt x o.zero = false) :
    o.lt o.zero x = !o.eq x o.zero := by
  cases heq : o.eq x o.zero with
  | true => rw [(laws.eq_zero x).mp heq, laws.irrefl, Bool.not_true]
  | false =>
    cases hlt : o.lt o.zero x with
    | true => rfl
    | false =>
      have hzero := (laws.eq_zero x).mpr (laws.antisymm x o.zero h hlt)
      exact absurd (hzero.symm.trans heq) (by decide)

/-! ### The reflectors -/

theorem reflect_lane {h : Nat → Fin N → D} {tau : Fin N → D} {x : Mat (Fin N → D)} {j : Nat} :
    lane l (reflect (o.toArith.lanes N) rows k h tau x j) =
      reflect o.toArith rows k (fun i => h i l) (tau l) (lane l x) j := by
  have hdot : (o.toArith.lanes N).mul (products (o.toArith.lanes N) (indices (k + 1) rows) h (fun i => x i j) (x k j))
      tau l = o.mul (products o.toArith (indices (k + 1) rows) (fun i => h i l) (fun i => lane l x i j)
        (lane l x k j)) (tau l) :=
    congrArg (fun y => o.mul y (tau l)) products_lane
  unfold reflect
  dsimp only
  rw [← hdot]
  generalize (o.toArith.lanes N).mul (products (o.toArith.lanes N) (indices (k + 1) rows) h (fun i => x i j) (x k j))
    tau = dot
  have hfirst : lane l (put x k j ((o.toArith.lanes N).sub (x k j) dot)) =
      put (lane l x) k j (o.sub (lane l x k j) (dot l)) := lane_put
  rw [← hfirst]
  exact foldl_read fun x i _ => lane_put

/-- A reflector that is the identity. -/
theorem reflect_zero (laws : Laws o) {h : Nat → D} {x : Mat D} {j : Nat} :
    reflect o.toArith rows k h o.zero x j = x := by
  unfold reflect
  simp only [laws.mul_zero, laws.sub_zero, put_same]
  exact foldl_same fun _ _ => rfl

theorem reflect_tau (laws : Laws o) {h : Nat → D} {tau : D} {is : List Nat} {x : Mat D} (htau : tau = o.zero) :
    is.foldl (reflect o.toArith rows k h tau) x = x := by
  subst htau
  exact foldl_same fun _ _ => reflect_zero laws

theorem eliminate_lane {inverse diagonal tau : Fin N → D} {qr : Mat (Fin N → D)} :
    lane l (eliminate (o.toArith.lanes N) rows r k inverse diagonal tau qr) =
      eliminate o.toArith rows r k (inverse l) (diagonal l) (tau l) (lane l qr) := by
  have hcolumn : lane l ((indices (k + 1) rows).foldl (fun qr i => put qr i k ((o.toArith.lanes N).mul (qr i k)
      inverse)) qr) = (indices (k + 1) rows).foldl (fun qr i => put qr i k (o.mul (qr i k) (inverse l)))
        (lane l qr) := foldl_read fun qr i _ => lane_put
  unfold eliminate
  dsimp only
  rw [← hcolumn, ← lane_put]
  exact foldl_read fun x j _ => reflect_lane

/-- A column that is zero from the diagonal on. -/
theorem eliminate_identity (laws : Laws o) {qr : Mat D} :
    eliminate o.toArith rows r k o.one (qr k k) o.zero qr = qr := by
  have hcolumn : (indices (k + 1) rows).foldl (fun qr i => put qr i k (o.mul (qr i k) o.one)) qr = qr :=
    foldl_same fun i _ => put_eq (laws.mul_one _)
  unfold eliminate
  dsimp only
  rw [hcolumn, put_same]
  exact reflect_tau laws rfl

/-- The factor and `tau` of a lane. -/
def readQr (l : Fin N) (s : Mat (Fin N → D) × (Nat → Fin N → D)) : Mat D × (Nat → D) :=
  (lane l s.1, fun k => s.2 k l)

theorem update_lane {tau : Nat → Fin N → D} {x : Fin N → D} :
    (fun k' => Function.update tau k x k' l) = Function.update (fun k' => tau k' l) k (x l) := by
  funext k'
  by_cases h : k' = k
  · subst h
    simp
  · simp [h]

theorem householderLanes_lane (laws : Laws o) {s : Mat (Fin N → D) × (Nat → Fin N → D)}
    (htau : s.2 k l = o.zero) :
    readQr l (householderLanes o N rows r s k) = householder o rows r (readQr l s) k := by
  have hnorm : products (o.toArith.lanes N) (indices k rows) (fun i => s.1 i k) (fun i => s.1 i k)
      (o.toArith.lanes N).zero l = products o.toArith (indices k rows) (fun i => lane l s.1 i k)
        (fun i => lane l s.1 i k) o.zero := products_lane
  have hpositive := positive_iff laws (squares_nonneg laws (indices k rows) (fun i => lane l s.1 i k)
    (laws.irrefl o.zero))
  unfold householderLanes householder readQr
  dsimp only
  rw [eliminate_lane, update_lane]
  generalize products (o.toArith.lanes N) (indices k rows) (fun i => s.1 i k) (fun i => s.1 i k)
    (o.toArith.lanes N).zero = norm at hnorm ⊢
  have hactive : gt o N norm (o.toArith.lanes N).zero l = !o.eq (norm l) o.zero := by
    rw [← hnorm] at hpositive
    exact hpositive
  rw [← hnorm]
  generalize gt o N norm (o.toArith.lanes N).zero = active at hactive ⊢
  cases heq : o.eq (norm l) o.zero with
  | true =>
    -- the factors of the lane are 1, its diagonal and 0
    have hoff : active l = false := hactive.trans (by rw [heq]; rfl)
    have hinv : (o.toArith.lanes N).div (o.toArith.lanes N).one (select active ((o.toArith.lanes N).sub (s.1 k k)
        ((o.toArith.lanes N).neg ((o.toArith.lanes N).copySign ((o.toArith.lanes N).sqrt norm) (s.1 k k))))
        (o.toArith.lanes N).one) l = o.one :=
      (congrArg (o.div o.one) (select_off hoff)).trans laws.one_div
    have hzero : (o.toArith.lanes N).zero l = (fun k' => s.2 k' l) k := htau.symm
    rw [select_off hoff, select_off hoff, hinv, if_pos rfl, hzero, Function.update_eq_self]
    exact congrArg (fun x => (x, _)) ((congrArg (fun z => eliminate _ _ _ _ _ _ z _) htau).trans
      (eliminate_identity laws))
  | false =>
    have hon : active l = true := hactive.trans (by rw [heq]; rfl)
    rw [select_on hon, select_on hon, if_neg Bool.false_ne_true]
    have hinv : (o.toArith.lanes N).div (o.toArith.lanes N).one (select active ((o.toArith.lanes N).sub (s.1 k k)
        ((o.toArith.lanes N).neg ((o.toArith.lanes N).copySign ((o.toArith.lanes N).sqrt norm) (s.1 k k))))
        (o.toArith.lanes N).one) l = o.div o.one (o.sub (s.1 k k l) (o.neg (o.copySign (o.sqrt (norm l))
          (s.1 k k l)))) := congrArg (o.div o.one) (select_on hon)
    have htk : (o.toArith.lanes N).div ((o.toArith.lanes N).sub ((o.toArith.lanes N).neg
        ((o.toArith.lanes N).copySign ((o.toArith.lanes N).sqrt norm) (s.1 k k))) (s.1 k k))
        (select active ((o.toArith.lanes N).neg ((o.toArith.lanes N).copySign ((o.toArith.lanes N).sqrt norm)
          (s.1 k k))) (o.toArith.lanes N).one) l = o.div (o.sub (o.neg (o.copySign (o.sqrt (norm l)) (s.1 k k l)))
            (s.1 k k l)) (o.neg (o.copySign (o.sqrt (norm l)) (s.1 k k l))) :=
      congrArg (o.div _) (select_on hon)
    rw [hinv, htk]
    rfl

/-- After `n` columns, those of `tau` behind them are not written yet. -/
theorem factor_lane (laws : Laws o) (rows r : Nat) (l : Fin N) (qr : Mat (Fin N → D)) (n : Nat) :
    readQr l ((List.range n).foldl (householderLanes o N rows r) (qr, fun _ _ => o.zero)) =
      (List.range n).foldl (householder o rows r) (lane l qr, fun _ => o.zero) ∧
    ∀ k, n ≤ k → ((List.range n).foldl (householderLanes o N rows r) (qr, fun _ _ => o.zero)).2 k l = o.zero := by
  induction n with
  | zero => exact ⟨rfl, fun _ _ => rfl⟩
  | succ n ih =>
    rw [List.range_succ, List.foldl_append, List.foldl_append, List.foldl_cons, List.foldl_nil, List.foldl_cons,
      List.foldl_nil, householderLanes_lane laws (ih.2 n (Nat.le_refl n)), ih.1]
    refine ⟨rfl, fun k hk => ?_⟩
    have hne : k ≠ n := by omega
    unfold householderLanes
    dsimp only
    rw [Function.update_of_ne hne]
    exact ih.2 k (by omega)

/-! ### The rotations -/

theorem initialLanes_lane (laws : Laws o) {qr : Mat (Fin N → D)} :
    initialLanes o N r qr l = initialNorm o r (lane l qr) := by
  have h : ∀ js : List Nat, ∀ first : Fin N → D, js.foldl (fun norm j => (o.toArith.lanes N).max norm
      (products (o.toArith.lanes N) (indices 0 (j + 1)) (fun i => qr i j) (fun i => qr i j)
        (o.toArith.lanes N).zero)) first l = js.foldl (fun norm j => o.stdMax norm (products o.toArith
          (indices 0 (j + 1)) (fun i => lane l qr i j) (fun i => lane l qr i j) o.zero)) (first l) := by
    intro js
    induction js with
    | nil => exact fun _ => rfl
    | cons j js ih =>
      intro first
      refine (ih _).trans (congrArg (fun y => js.foldl _ y) ?_)
      exact (laws.max_eq _ _).trans (congrArg (o.stdMax (first l)) products_lane)
  exact h (List.range r) fun _ => o.zero

theorem triangle_lane {qr : Mat (Fin N → D)} :
    lane l (triangle (o.toArith.lanes N) r qr) = triangle o.toArith r (lane l qr) :=
  foldl_read fun _ _ _ => foldl_read fun _ _ _ => lane_put

theorem identity_lane : lane l (identity (o.toArith.lanes N) r) = identity o.toArith r :=
  foldl_read fun _ _ _ => lane_put

/-- The matrices of a lane. -/
def readPair (l : Fin N) (bv : Mat (Fin N → D) × Mat (Fin N → D)) : Mat D × Mat D := (lane l bv.1, lane l bv.2)

theorem rotateRow_on {active : Fin N → Bool} (h : active l = true) {c s : Fin N → D} {p q i : Nat}
    {b : Mat (Fin N → D)} : lane l (rotateRow (o.toArith.lanes N) (select active) c s p q b i) =
      rotateRow o.toArith (fun new _ => new) (c l) (s l) p q (lane l b) i := by
  unfold rotateRow
  dsimp only
  rw [lane_put, lane_put, select_on h, select_on h]
  rfl

theorem rotateRow_off {active : Fin N → Bool} (h : active l = false) {c s : Fin N → D} {p q i : Nat}
    {b : Mat (Fin N → D)} : lane l (rotateRow (o.toArith.lanes N) (select active) c s p q b i) = lane l b := by
  have hx : put (lane l b) i p (b i p l) = lane l b := put_same
  unfold rotateRow
  dsimp only
  rw [lane_put, lane_put, select_off h, select_off h, hx]
  exact put_same

theorem rotateColumns_on {active : Fin N → Bool} (h : active l = true) {c s : Fin N → D} {p q : Nat}
    {bv : Mat (Fin N → D) × Mat (Fin N → D)} :
    readPair l (rotateColumns (o.toArith.lanes N) (select active) r c s p q bv) =
      rotateColumns o.toArith (fun new _ => new) r (c l) (s l) p q (readPair l bv) :=
  foldl_read fun _ _ _ => Prod.ext (rotateRow_on h) (rotateRow_on h)

theorem rotateColumns_off {active : Fin N → Bool} (h : active l = false) {c s : Fin N → D} {p q : Nat}
    {bv : Mat (Fin N → D) × Mat (Fin N → D)} :
    readPair l (rotateColumns (o.toArith.lanes N) (select active) r c s p q bv) = readPair l bv :=
  (foldl_read (g := fun bv _ => bv) fun _ _ _ => Prod.ext (rotateRow_off h) (rotateRow_off h)).trans
    (foldl_same fun _ _ => rfl)

/-- A lane of a sweep and the group alone; the flag is that of any lane. -/
def Follows (l : Fin N) (S : (Mat (Fin N → D) × Mat (Fin N → D)) × Bool) (s : (Mat D × Mat D) × Bool) : Prop :=
  readPair l S.1 = s.1 ∧ (s.2 = true → S.2 = true)

/-- A pair does to a lane what it does to the group alone. -/
theorem jacobiPairLanes_lane (laws : Laws o) {rankFloor : Fin N → D}
    {S : (Mat (Fin N → D) × Mat (Fin N → D)) × Bool} {s : (Mat D × Mat D) × Bool} {pq : Nat × Nat}
    (h : Follows l S s) :
    Follows l (jacobiPairLanes o N r rankFloor S pq) (jacobiPair o r (rankFloor l) s pq) := by
  obtain ⟨bv, flag⟩ := s
  obtain ⟨rfl, hflag⟩ := h
  have hproducts : ∀ p q : Nat, products (o.toArith.lanes N) (List.range r) (fun i => S.1.1 i p)
      (fun i => S.1.1 i q) (o.toArith.lanes N).zero l = products o.toArith (List.range r)
        (fun i => lane l S.1.1 i p) (fun i => lane l S.1.1 i q) o.zero := fun p q => products_lane
  unfold Follows jacobiPairLanes jacobiPair readPair
  dsimp only
  rw [← hproducts pq.1 pq.1, ← hproducts pq.2 pq.2, ← hproducts pq.1 pq.2]
  generalize products (o.toArith.lanes N) (List.range r) (fun i => S.1.1 i pq.1) (fun i => S.1.1 i pq.1)
    (o.toArith.lanes N).zero = app
  generalize products (o.toArith.lanes N) (List.range r) (fun i => S.1.1 i pq.2) (fun i => S.1.1 i pq.2)
    (o.toArith.lanes N).zero = aqq
  generalize products (o.toArith.lanes N) (List.range r) (fun i => S.1.1 i pq.1) (fun i => S.1.1 i pq.2)
    (o.toArith.lanes N).zero = apq
  have hactive : turned o N rankFloor app aqq apq l = !(o.le (app l) (rankFloor l) || o.le (aqq l) (rankFloor l) ||
      o.le (o.abs (apq l)) (o.mul (o.lit tolerance) (o.sqrt (o.mul (app l) (aqq l))))) := by
    rw [laws.le_eq, laws.le_eq, laws.le_eq, Bool.not_or, Bool.not_or, Bool.not_not, Bool.not_not, Bool.not_not]
    rfl
  generalize turned o N rankFloor app aqq apq = active at hactive ⊢
  cases hskip : o.le (app l) (rankFloor l) || o.le (aqq l) (rankFloor l) ||
      o.le (o.abs (apq l)) (o.mul (o.lit tolerance) (o.sqrt (o.mul (app l) (aqq l)))) with
  | true =>
    have hoff : active l = false := hactive.trans (by rw [hskip]; rfl)
    rw [if_pos rfl]
    split
    · exact ⟨rfl, hflag⟩
    · exact ⟨rotateColumns_off hoff, fun _ => rfl⟩
  | false =>
    have hon : active l = true := hactive.trans (by rw [hskip]; rfl)
    have hsome : ((List.finRange N).all fun l => !active l) = false := by
      rw [List.all_eq_false]
      exact ⟨l, List.mem_finRange l, by simp [hon]⟩
    rw [if_neg Bool.false_ne_true, if_neg (by rw [hsome]; decide)]
    refine ⟨(rotateColumns_on hon).trans ?_, fun _ => rfl⟩
    have hden : select active ((o.toArith.lanes N).mul ((o.toArith.lanes N).lit 2) apq) (o.toArith.lanes N).one l =
        o.mul (o.lit 2) (apq l) := select_on hon
    have hcs : ((rotation (o.toArith.lanes N) ((o.toArith.lanes N).sub aqq app) (select active
        ((o.toArith.lanes N).mul ((o.toArith.lanes N).lit 2) apq) (o.toArith.lanes N).one)).1 l,
        (rotation (o.toArith.lanes N) ((o.toArith.lanes N).sub aqq app) (select active
        ((o.toArith.lanes N).mul ((o.toArith.lanes N).lit 2) apq) (o.toArith.lanes N).one)).2 l) =
        rotation o.toArith (o.sub (aqq l) (app l)) (o.mul (o.lit 2) (apq l)) := by
      rw [← hden]
      rfl
    rw [← hcs]
    rfl

theorem sweepLanes_lane (laws : Laws o) {rankFloor : Fin N → D} (bv : Mat (Fin N → D) × Mat (Fin N → D)) :
    readPair l (sweepLanes o N r rankFloor bv).1 = (sweep o r (rankFloor l) (readPair l bv)).1 ∧
      ((sweep o r (rankFloor l) (readPair l bv)).2 = true → (sweepLanes o N r rankFloor bv).2 = true) := by
  have hpair : ∀ pq ∈ pairs r, ∀ S s, Follows l S s →
      Follows l (jacobiPairLanes o N r rankFloor S pq) (jacobiPair o r (rankFloor l) s pq) :=
    fun _ _ _ _ hs => jacobiPairLanes_lane laws hs
  have hstart : Follows l (bv, false) (readPair l bv, false) := ⟨rfl, id⟩
  exact foldl_related (R := Follows l) hpair hstart

/-- A sweep without a rotation leaves everything as it is. -/
theorem sweep_still {rankFloor : D} {bv : Mat D × Mat D} (h : (sweep o r rankFloor bv).2 = false) :
    sweep o r rankFloor bv = (bv, false) := by
  have hflag : ∀ pqs : List (Nat × Nat), ∀ s, s.2 = true →
      (pqs.foldl (jacobiPair o r rankFloor) s).2 = true := by
    intro pqs
    induction pqs with
    | nil => exact fun _ hs => hs
    | cons pq pqs ih =>
      intro s hs
      refine ih _ ?_
      unfold jacobiPair
      dsimp only
      split
      · exact hs
      · rfl
  have hsame : ∀ pqs : List (Nat × Nat), ∀ s, (pqs.foldl (jacobiPair o r rankFloor) s).2 = false →
      pqs.foldl (jacobiPair o r rankFloor) s = s := by
    intro pqs
    induction pqs with
    | nil => exact fun _ _ => rfl
    | cons pq pqs ih =>
      intro s hs
      have hstep : jacobiPair o r rankFloor s pq = s ∨ (jacobiPair o r rankFloor s pq).2 = true := by
        unfold jacobiPair
        dsimp only
        split
        · exact .inl rfl
        · exact .inr rfl
      rw [List.foldl_cons] at hs ⊢
      cases hstep with
      | inl hsame => rw [hsame] at hs ⊢; exact ih s hs
      | inr hrotated => exact absurd ((hflag pqs _ hrotated).symm.trans hs) (by decide)
  exact hsame (pairs r) (bv, false) h

theorem rotations_lane (laws : Laws o) {rankFloor : Fin N → D} (n : Nat)
    (bv : Mat (Fin N → D) × Mat (Fin N → D)) :
    readPair l (sweeps (sweepLanes o N r rankFloor) n bv) =
      sweeps (sweep o r (rankFloor l)) n (readPair l bv) := by
  refine sweeps_lane (fun t => (sweepLanes_lane laws t).1) (fun t => (sweepLanes_lane laws t).2) ?_ n bv
  intro s hs
  rw [sweep_still hs]
  exact sweep_still hs

/-! ### The factors -/

theorem singularLanes_lane {rankFloor : Fin N → D} {b : Mat (Fin N → D)} :
    (fun j => singularLanes o N r rankFloor b j l) = singularOf o r (rankFloor l) (lane l b) := by
  funext j
  have hnorm : products (o.toArith.lanes N) (List.range r) (fun i => b i j) (fun i => b i j)
      (o.toArith.lanes N).zero l = products o.toArith (List.range r) (fun i => lane l b i j)
        (fun i => lane l b i j) o.zero := products_lane
  unfold singularLanes singularOf select gt
  dsimp only
  rw [← hnorm]
  rfl

/-- The columns of a lane with their norms. -/
def readColumns (l : Fin N) (s : (Nat → Fin N → D) × Mat (Fin N → D) × Mat (Fin N → D)) :
    (Nat → D) × Mat D × Mat D :=
  (fun k => s.1 k l, lane l s.2.1, lane l s.2.2)

theorem sort_lane (s : (Nat → Fin N → D) × Mat (Fin N → D) × Mat (Fin N → D)) :
    readColumns l ((List.finRange N).foldl (sortLane o N r) s) = sortColumns o r (readColumns l s) := by
  refine foldl_own readColumns (g := fun _ => sortColumns o r) (fun s l => ?_) (fun s l l' hne => ?_)
    (List.nodup_finRange N) (List.mem_finRange l) s
  · unfold sortLane readColumns lane
    simp
  · unfold sortLane readColumns lane
    simp [Function.update_of_ne (Ne.symm hne)]

/-- A column without a vector is zero from the start. -/
theorem leftLanes_lane {singular : Nat → Fin N → D} {b : Mat (Fin N → D)} :
    lane l (leftLanes o N r singular b) = leftVectors o r (fun k => singular k l) (lane l b) := by
  unfold leftLanes leftVectors
  dsimp only
  -- after `n` columns, those behind them are zero
  have h : ∀ n, lane l ((List.range n).foldl (fun u j => (List.range r).foldl (fun u i => put u i j
        (select (gt o N (singular j) (o.toArith.lanes N).zero) ((o.toArith.lanes N).div (b i j)
          (select (gt o N (singular j) (o.toArith.lanes N).zero) (singular j) (o.toArith.lanes N).one))
          (o.toArith.lanes N).zero)) u) fun _ _ => (o.toArith.lanes N).zero) =
      (List.range n).foldl (fun u j => if o.lt o.zero (singular j l) then
        (List.range r).foldl (fun u i => put u i j (o.div (lane l b i j) (singular j l))) u else u)
        (fun _ _ => o.zero) ∧
      ∀ i j, n ≤ j → ((List.range n).foldl (fun u j => if o.lt o.zero (singular j l) then
        (List.range r).foldl (fun u i => put u i j (o.div (lane l b i j) (singular j l))) u else u)
        (fun _ _ => o.zero)) i j = o.zero := by
    intro n
    induction n with
    | zero => exact ⟨rfl, fun _ _ _ => rfl⟩
    | succ n ih =>
      obtain ⟨hlane, hzero⟩ := ih
      simp only [List.range_succ, List.foldl_append, List.foldl_cons, List.foldl_nil]
      rw [← hlane] at hzero ⊢
      generalize (List.range n).foldl _ _ = u at hzero ⊢
      cases hlt : o.lt o.zero (singular n l) with
      | true =>
        have hactive : gt o N (singular n) (o.toArith.lanes N).zero l = true := hlt
        rw [if_pos rfl]
        refine ⟨foldl_read fun u i _ => lane_put.trans ?_, fun i j hj => ?_⟩
        · rw [select_on hactive]
          exact congrArg (fun y => put (lane l u) i n (o.div (b i n l) y)) (select_on hactive)
        · have hne : j ≠ n := by omega
          rw [foldl_put_column hne]
          exact hzero i j (by omega)
      | false =>
        have hactive : gt o N (singular n) (o.toArith.lanes N).zero l = false := hlt
        rw [if_neg Bool.false_ne_true]
        refine ⟨?_, fun i j hj => hzero i j (by omega)⟩
        refine (foldl_read (g := fun u i => put u i n o.zero) fun u i _ => lane_put.trans ?_).trans ?_
        · rw [select_off hactive]
          rfl
        · -- column `n` is zero and stays so
          have hkeep : ∀ is : List Nat, is.foldl (fun u i => put u i n o.zero) (lane l u) = lane l u :=
            fun is => foldl_same fun i _ => put_eq (hzero i n (Nat.le_refl n)).symm
          exact hkeep _
  exact (h r).1

theorem replayLanes_lane (laws : Laws o) {qr : Mat (Fin N → D)} {tau : Nat → Fin N → D} {u : Mat (Fin N → D)} :
    lane l (replayLanes o N rows r qr tau u) =
      replay o rows r (lane l qr) (fun k => tau k l) (lane l u) := by
  refine foldl_read fun u k _ => ?_
  have hcolumns : lane l ((List.range r).foldl (reflect (o.toArith.lanes N) rows k (fun i => qr i k) (tau k)) u) =
      (List.range r).foldl (reflect o.toArith rows k (fun i => lane l qr i k) (tau k l)) (lane l u) :=
    foldl_read fun _ _ _ => reflect_lane
  rw [hcolumns]
  cases heq : o.eq (tau k l) o.zero with
  | true =>
    rw [if_pos rfl]
    exact reflect_tau laws ((laws.eq_zero _).mp heq)
  | false => rw [if_neg Bool.false_ne_true]

theorem rotatedLanes_lane (laws : Laws o) {rankFloor : Fin N → D} {qr : Mat (Fin N → D)} :
    readColumns l (rotatedLanes o N r rankFloor qr) = rotated o r (rankFloor l) (lane l qr) := by
  have hstart : readPair l (triangle (o.toArith.lanes N) r qr, identity (o.toArith.lanes N) r) =
      (triangle o.toArith r (lane l qr), identity o.toArith r) := Prod.ext triangle_lane identity_lane
  have hrotations : readPair l (sweeps (sweepLanes o N r rankFloor) 128
      (triangle (o.toArith.lanes N) r qr, identity (o.toArith.lanes N) r)) = sweeps (sweep o r (rankFloor l)) 128
        (readPair l (triangle (o.toArith.lanes N) r qr, identity (o.toArith.lanes N) r)) :=
    rotations_lane laws 128 _
  unfold rotatedLanes rotated
  dsimp only
  rw [sort_lane, ← hstart, ← hrotations]
  exact congrArg (fun y => sortColumns o r (y, _)) singularLanes_lane

theorem decomposeLanes_lane (laws : Laws o) (x : Exponents D) {m n : Nat} {input : Fin N → Nat → D} :
    decomposeLanes o x N m n input l = decompose o m n (fun i j => input l (i + j * m))
      (scaleOf o x ((List.range (m * n)).foldl (fun maximum i => o.stdMax maximum (o.abs (input l i))) o.zero)) := by
  unfold decomposeLanes decompose
  dsimp only
  generalize hqr : (fun i j l => o.mul (input l (if decide (m < n) then j + i * m else i + j * m))
    (scaleOf o x ((List.range (m * n)).foldl (fun maximum i => o.stdMax maximum (o.abs (input l i))) o.zero))) = qr
  have hpacked : lane l qr = fun i j => o.mul (if decide (m < n) then input l (j + i * m) else input l (i + j * m))
      (scaleOf o x ((List.range (m * n)).foldl (fun maximum i => o.stdMax maximum (o.abs (input l i))) o.zero)) := by
    subst hqr
    funext i j
    unfold lane
    split <;> rfl
  have hfactor := (factor_lane laws (max m n) (min m n) l qr (min m n)).1
  rw [← hpacked, ← hfactor]
  generalize (List.range (min m n)).foldl (householderLanes o N (max m n) (min m n)) (qr, fun _ _ => o.zero) = s
  have hfloor : (o.toArith.lanes N).mul (initialLanes o N (min m n) s.1) ((o.toArith.lanes N).lit floorFactor) l =
      o.mul (initialNorm o (min m n) (lane l s.1)) (o.lit floorFactor) :=
    congrArg (fun y => o.mul y _) (initialLanes_lane laws)
  unfold readQr
  dsimp only
  rw [← hfloor, ← rotatedLanes_lane laws]
  generalize rotatedLanes o N (min m n) _ s.1 = t
  unfold readColumns
  dsimp only
  rw [replayLanes_lane laws, leftLanes_lane]

/-- The elements of a matrix in their storage. -/
theorem range_columns {m : Nat} (n : Nat) :
    ((List.range n).flatMap fun j => (List.range m).map fun i => i + j * m) = List.range (m * n) := by
  induction n with
  | zero => simp
  | succ n ih =>
    rw [List.range_succ, List.flatMap_append, ih, Nat.mul_succ, List.range_add]
    simp [Nat.add_comm, Nat.mul_comm]

theorem qrSvd_finite {x : Exponents D} {m n : Nat} {input : Nat → D}
    (hfinite : ∀ i < m * n, o.isFinite (input i) = true) :
    qrSvd o x m n (fun i j => input (i + j * m)) = some (decompose o m n (fun i j => input (i + j * m))
      (scaleOf o x ((List.range (m * n)).foldl (fun maximum i => o.stdMax maximum (o.abs (input i))) o.zero))) := by
  have hcolumn : ∀ j ∈ List.range n, ∀ s, (List.range m).foldlM (fun maximum i =>
      if o.isFinite (input (i + j * m)) then some (o.stdMax maximum (o.abs (input (i + j * m)))) else none) s =
      some ((List.range m).foldl (fun maximum i => o.stdMax maximum (o.abs (input (i + j * m)))) s) := by
    intro j hj s
    refine Tiles.foldlM_eq (fun i hi s => if_pos (hfinite _ ?_)) s
    have hlt := List.mem_range.mp hi
    have hle : (j + 1) * m ≤ n * m := Nat.mul_le_mul_right m (List.mem_range.mp hj)
    rw [Nat.succ_mul, Nat.mul_comm n] at hle
    omega
  have hall := Tiles.foldlM_eq hcolumn o.zero
  unfold qrSvd
  rw [hall, ← range_columns n, List.foldl_flatMap]
  simp only [List.foldl_map]
  rfl

/-! ### The groups -/

section Batch

variable {x : Exponents D} {m n count start g : Nat} {work : Nat → Workspace D}

/-- What a group alone leaves. -/
def alone (o : Floats D) (x : Exponents D) (m n : Nat) (input : Nat → D) : Factors D :=
  decompose o m n (fun i j => input (i + j * m))
    (scaleOf o x ((List.range (m * n)).foldl (fun maximum i => o.stdMax maximum (o.abs (input i))) o.zero))

theorem chunk_at (laws : Laws o) : chunk o x N m n count work start g =
    if start ≤ g ∧ g < start + min N (count - start) then
      ⟨(work g).input, alone o x m n (work g).input⟩ else work g := by
  unfold chunk
  by_cases hg : start ≤ g ∧ g < start + N
  · obtain ⟨l, rfl⟩ : ∃ l, g = start + l := ⟨g - start, by omega⟩
    have hl : l < N := by omega
    refine (foldl_lanes (f := fun l y => ⟨y.input, decomposeLanes o x N m n (inputs N count work start) l⟩) work
      ⟨l, hl⟩).trans ?_
    dsimp only
    by_cases hreal : l < min N (count - start)
    · have hmin : min l (min N (count - start) - 1) = l := by omega
      have hinput : inputs N count work start ⟨l, hl⟩ = (work (start + l)).input := by
        unfold inputs
        rw [hmin]
      rw [if_pos hreal, if_pos (by omega), decomposeLanes_lane laws x, hinput]
      rfl
    · rw [if_neg hreal, if_neg (by omega)]
  · rw [if_neg (by omega)]
    have hoff : g < start ∨ start + N ≤ g := by omega
    exact foldl_lanes_off (f := fun l y => ⟨y.input, decomposeLanes o x N m n (inputs N count work start) l⟩) work
      hoff

/-- After `c` vectors, their groups are done and the others as they were. -/
theorem batch_at (laws : Laws o) (c : Nat) :
    (((List.range c).map fun c => c * N).foldl (chunk o x N m n count) work) g =
      if g < count ∧ g < c * N then ⟨(work g).input, alone o x m n (work g).input⟩ else work g := by
  induction c generalizing g with
  | zero => simp
  | succ c ih =>
    rw [List.range_succ, List.map_append, List.foldl_append, List.map_cons, List.map_nil, List.foldl_cons,
      List.foldl_nil, chunk_at laws, ih, Nat.succ_mul]
    by_cases hbefore : g < c * N
    · rw [if_neg (by omega)]
      congr 1
      simp only [eq_iff_iff]
      omega
    · rw [if_neg (by omega : ¬(g < count ∧ g < c * N))]
      congr 1
      simp only [eq_iff_iff]
      omega

/-- Every group of a batch has the factors that it has alone. -/
theorem twscSvd64Batch_at (laws : Laws o) (hN : 0 < N) :
    twscSvd64Batch o x N m n count work g =
      if g < count then ⟨(work g).input, alone o x m n (work g).input⟩ else work g := by
  have hcover : count ≤ (count + N - 1) / N * N := by
    have hdiv := Nat.div_add_mod (count + N - 1) N
    have hmod := Nat.mod_lt (count + N - 1) hN
    rw [Nat.mul_comm] at hdiv
    omega
  unfold twscSvd64Batch
  rw [batch_at laws]
  congr 1
  simp only [eq_iff_iff]
  omega

end Batch

/-! ### The check -/

section Check

variable {m n : Nat} {a : Mat D} {w : Factors D}

theorem entryLanes_apply (i j : Nat) : entryLanes o N m n w i j l = entry o m n w (i + l) j :=
  Tiles.foldl_at (fun (l : Fin N) x k => o.add x (o.mul (o.mul (w.dictionary (i + l) k) (w.singular k)) (w.vt k j)))
    (fun _ => o.zero) (List.range (min m n)) l

theorem columnLanes_eq (s : D × D) (j : Nat) : columnLanes o N m n a w s j = column o m n a w s j := by
  unfold columnLanes column
  simp only [entryLanes_apply]
  rw [List.range_eq_range']
  exact foldlM_vectors (f := fun s i => compare o s (entry o m n w i j) (a i j)) (Nat.zero_le m) s

theorem pairLanes_eq (j : Nat) (orthogonal : D) (k : Nat) : pairLanes o N m n w j orthogonal k =
    (List.finRange N).foldl (fun orthogonal (l : Fin N) => pair o m n w j orthogonal (k + l)) orthogonal := by
  unfold pairLanes pair
  simp only [products_lane]
  rfl

/-- The check in lanes makes the same comparisons, also of NaN. -/
theorem twscValidSvdLanes_eq : twscValidSvdLanes o N m n a w = validSvd o m n a w := by
  have hcolumns : columnLanes o N m n a w = column o m n a w := by
    funext s j
    exact columnLanes_eq s j
  have hpairs : ∀ j, pairLanes o N m n w j = fun orthogonal k => (List.finRange N).foldl
      (fun orthogonal (l : Fin N) => pair o m n w j orthogonal (k + l)) orthogonal := by
    intro j
    funext orthogonal k
    exact pairLanes_eq j orthogonal k
  unfold twscValidSvdLanes validSvd
  rw [hcolumns]
  congr 2
  funext orthogonal j
  rw [hpairs, foldl_vectors (Nat.zero_le (j + 1)), Nat.sub_zero, ← List.range_eq_range']

end Check

end Proofs

/-! ## The batch -/

/-- A batch leaves in each group what the group alone has, and a check in lanes accepts what the
scalar one accepts: whether a group is refused does not depend on the others. -/
theorem twscSvd64Batch_alone {D : Type} (o : Floats D) (x : Exponents D) :
    (Laws o → ∀ N m n count : Nat, 0 < N → ∀ work : Nat → Workspace D,
      (∀ g < count, ∀ i < m * n, o.isFinite ((work g).input i) = true) → ∀ g < count,
        ∃ f, qrSvd o x m n (fun i j => (work g).input (i + j * m)) = some f ∧
          (twscSvd64Batch o x N m n count work g).factors = f ∧
          ∀ lanesAvailable, twscValidSvd o N m n (fun i j => (work g).input (i + j * m))
            (twscSvd64Batch o x N m n count work g).factors lanesAvailable =
              validSvd o m n (fun i j => (work g).input (i + j * m)) f) ∧
    ∀ (N m n : Nat) (a : Mat D) (w : Factors D), twscValidSvdLanes o N m n a w = validSvd o m n a w := by
  refine ⟨fun laws N m n count hN work hfinite g hg => ?_, fun N m n a w => twscValidSvdLanes_eq⟩
  have hfactors : (twscSvd64Batch o x N m n count work g).factors = alone o x m n (work g).input := by
    rw [twscSvd64Batch_at laws hN, if_pos hg]
  refine ⟨_, qrSvd_finite (hfinite g hg), hfactors, fun lanesAvailable => ?_⟩
  rw [hfactors]
  unfold twscValidSvd
  split
  · exact twscValidSvdLanes_eq
  · rfl

/-- Rationals, with the identity as the root. -/
def rationals : Floats ℚ where
  zero := 0
  lit q := q
  add x y := x + y
  sub x y := x - y
  mul x y := x * y
  div x y := x / y
  mulAdd x y z := x * y + z
  negMulAdd x y z := z - x * y
  neg x := -x
  abs x := |x|
  sqrt x := x
  copySign x y := if y < 0 then -|x| else |x|
  max x y := max x y
  lt x y := decide (x < y)
  le x y := decide (x ≤ y)
  eq x y := decide (x = y)
  isFinite _ := true

theorem rationals_laws : Laws rationals where
  mul_one := mul_one
  one_div := by decide +kernel
  mul_zero := mul_zero
  sub_zero := sub_zero
  irrefl x := by simp [rationals]
  antisymm x y h h' := by
    simp only [rationals, decide_eq_false_iff_not, not_lt] at h h'
    exact le_antisymm h' h
  le_eq x y := by simp [rationals, ← not_lt]
  eq_zero x := by simp [rationals]
  max_eq x y := by
    unfold Floats.stdMax
    simp only [rationals, decide_eq_true_eq]
    split
    · rename_i h
      exact max_eq_right h.le
    · rename_i h
      exact max_eq_left (not_lt.mp h)
  square x := by simpa [rationals] using mul_self_nonneg x
  add x y h h' := by
    simp only [rationals, decide_eq_false_iff_not, not_lt] at h h' ⊢
    exact add_nonneg h h'

def halves : Exponents ℚ := ⟨fun _ => 1, fun x e => x / 2 ^ e.natAbs⟩

/-- Three wide groups in vectors of two. -/
def threeGroups : Nat → Workspace ℚ := fun g => ⟨fun i => g + i, ⟨fun _ _ => 0, fun _ => 0, fun _ _ => 0⟩⟩

theorem twscSvd64Batch_alone_three : ∃ f,
    qrSvd rationals halves 2 3 (fun i j => (threeGroups 2).input (i + j * 2)) = some f ∧
      (twscSvd64Batch rationals halves 2 2 3 3 threeGroups 2).factors = f := by
  obtain ⟨f, hf, hfactors, -⟩ := (twscSvd64Batch_alone rationals halves).1 rationals_laws 2 2 3 3 (by decide)
    threeGroups (fun _ _ _ _ => rfl) 2 (by decide)
  exact ⟨f, hf, hfactors⟩

end NssFactory.Cpu.TwscBatch
