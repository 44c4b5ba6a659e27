import NssFactory.Lib.Haar
import NssFactory.Lib.Lines

/-!
# The 2-D Haar transform of an NLH group

`cpu/nlh/haar_inl.hpp` and `cpu/nlh/haar.cpp`: a group of `n` columns of `q` values, stored by
columns, is transformed along its columns and then along its rows, and back in the other order.
There are several ways to the same coefficients: value by value through a line buffer
(`haar2dGeneric`), in the lanes of vectors (`haar2dFast`), and for 4 by 16 values in the
registers of one width (`haar2d4x16`, `haar2dAvx24x16`).

`s` is `kHaarInvSqrt2`, in a commutative ring; a local array starts with zeros here, which are
never read. A vector is a function of the lane. The buffers of a line hold 64 values.
-/

namespace NssFactory.Cpu.NlhHaar

open Haar Lines

section Definitions

variable {α : Type*} [CommRing α] (s : α)

/-! ## One line -/

/-- The two buffers `a` and `b` of a line. -/
abbrev Buffers (α : Type*) := (Nat → α) × (Nat → α)

/-- The body of the loop over `len`. -/
def haar1dLevel (len : Nat) (st : Buffers α) : Buffers α :=
  let h := len / 2
  let a := st.1
  let b := storeAll ((List.range h).flatMap fun i =>
    [(i, (a (2 * i) + a (2 * i + 1)) * s), (h + i, (a (2 * i) - a (2 * i + 1)) * s)]) st.2
  (storeRun 0 len b a, b)

def haar1dN (src : Nat → α) (n : Nat) : Nat → α :=
  if n = 1 then src
  else (halving (haar1dLevel s) n n (storeRun 0 n src fun _ => 0, fun _ => 0)).1

def iHaar1dLevel (len : Nat) (st : Buffers α) : Buffers α :=
  let h := len / 2
  let a := st.1
  let b := storeAll ((List.range h).flatMap fun i =>
    [(2 * i, (a i + a (h + i)) * s), (2 * i + 1, (a i - a (h + i)) * s)]) st.2
  (storeRun 0 len b a, b)

def iHaar1dN (src : Nat → α) (n : Nat) : Nat → α :=
  if n = 1 then src
  else (doubling (iHaar1dLevel s) n n 2 (storeRun 0 n src fun _ => 0, fun _ => 0)).1

def transform1d (inverse : Bool) (src : Nat → α) (n : Nat) : Nat → α :=
  if inverse then iHaar1dN s src n else haar1dN s src n

/-- A line of `n` values that follow one another from `base` on, in place. -/
def inPlace (inverse : Bool) (base n : Nat) (mat : Nat → α) : Nat → α :=
  storeRun base n (transform1d s inverse (fun i => mat (base + i)) n) mat

/-- Row `r` through a line buffer. -/
def rowInPlace (inverse : Bool) (q n r : Nat) (mat : Nat → α) : Nat → α :=
  let line := transform1d s inverse (storeRun 0 n (fun c => mat (r + c * q)) fun _ => 0) n
  storeAll ((List.range n).map fun c => (r + c * q, line c)) mat

def columnsByLine (inverse : Bool) (q n : Nat) (mat : Nat → α) : Nat → α :=
  (List.range n).foldl (fun mat c => inPlace s inverse (c * q) q mat) mat

def rowsByLine (inverse : Bool) (q n : Nat) (mat : Nat → α) : Nat → α :=
  (List.range q).foldl (fun mat r => rowInPlace s inverse q n r mat) mat

/-- `NlhHaar2d` with `NSS_ALIGNMENT_GENERIC`. -/
def haar2dGeneric (q n : Nat) (inverse : Bool) (mat : Nat → α) : Nat → α :=
  if inverse then columnsByLine s true q n (rowsByLine s true q n mat)
  else rowsByLine s false q n (columnsByLine s false q n mat)

/-! ## Vectors -/

abbrev Lanes (α : Type*) := Nat → α

/-- `Mul(Add(v, w), s)` -/
def plus (v w : Lanes α) : Lanes α := fun l => (v l + w l) * s

/-- `Mul(Sub(v, w), s)` -/
def minus (v w : Lanes α) : Lanes α := fun l => (v l - w l) * s

structure Vec4 (α : Type*) where
  v0 : Lanes α
  v1 : Lanes α
  v2 : Lanes α
  v3 : Lanes α

def loadInterleaved4 (mat : Nat → α) (p : Nat) : Vec4 α where
  v0 l := mat (p + 4 * l)
  v1 l := mat (p + 4 * l + 1)
  v2 l := mat (p + 4 * l + 2)
  v3 l := mat (p + 4 * l + 3)

def storeInterleaved4 (lanes : Nat) (v : Vec4 α) (p : Nat) (mat : Nat → α) : Nat → α :=
  storeAll ((List.range lanes).flatMap fun l =>
    [(p + 4 * l, v.v0 l), (p + 4 * l + 1, v.v1 l), (p + 4 * l + 2, v.v2 l), (p + 4 * l + 3, v.v3 l)]) mat

def haar4Vec (inv : Bool) (v : Vec4 α) : Vec4 α :=
  if !inv then
    let b0 := plus s v.v0 v.v1
    let b1 := plus s v.v2 v.v3
    let b2 := minus s v.v0 v.v1
    let b3 := minus s v.v2 v.v3
    ⟨plus s b0 b1, minus s b0 b1, b2, b3⟩
  else
    let t0 := plus s v.v0 v.v1
    let t1 := minus s v.v0 v.v1
    ⟨plus s t0 v.v2, minus s t0 v.v2, plus s t1 v.v3, minus s t1 v.v3⟩

/-- Whole vectors of columns, then the columns that are left. -/
def haarColsQ4 (lanes n : Nat) (inverse : Bool) (mat : Nat → α) : Nat → α :=
  let mat := (List.range (n / lanes)).foldl (fun mat block =>
    let p := block * lanes * 4
    storeInterleaved4 lanes (haar4Vec s inverse (loadInterleaved4 mat p)) p mat) mat
  let c := n / lanes * lanes
  (List.range (n - c)).foldl (fun mat i => inPlace s inverse ((c + i) * 4) 4 mat) mat

/-- Two values are their own inverse, so `inverse` is not asked. -/
def haarColsQ2 (lanes n : Nat) (mat : Nat → α) : Nat → α :=
  let mat := (List.range (n / lanes)).foldl (fun mat block =>
    let p := block * lanes * 2
    let v0 : Lanes α := fun l => mat (p + 2 * l)
    let v1 : Lanes α := fun l => mat (p + 2 * l + 1)
    storeAll ((List.range lanes).flatMap fun l =>
      [(p + 2 * l, plus s v0 v1 l), (p + 2 * l + 1, minus s v0 v1 l)]) mat) mat
  let c := n / lanes * lanes
  (List.range (n - c)).foldl (fun mat i => inPlace s false ((c + i) * 2) 2 mat) mat

/-- One level of `HaarRowsTogether<Q>`: vectors of rows, over the columns `0, …, len - 1`. -/
def rowsLevel (q lanes : Nat) (inverse : Bool) (len : Nat) (st : Buffers α) : Buffers α :=
  let half := len / 2
  let mat := st.1
  let scratch := storeAll ((List.range half).flatMap fun j =>
    (List.range ((q + lanes - 1) / lanes)).flatMap fun block =>
      let r := block * lanes
      let load (j : Nat) : Lanes α := fun l => mat (j * q + r + l)
      if !inverse then
        let a := load (2 * j)
        let b := load (2 * j + 1)
        ((List.range lanes).map fun l => (j * q + r + l, plus s a b l)) ++
          (List.range lanes).map fun l => ((half + j) * q + r + l, minus s a b l)
      else
        let a := load j
        let b := load (half + j)
        ((List.range lanes).map fun l => (2 * j * q + r + l, plus s a b l)) ++
          (List.range lanes).map fun l => ((2 * j + 1) * q + r + l, minus s a b l)) st.2
  (storeRun 0 (len * q) scratch mat, scratch)

/-- `CappedTag<float, Q>` has no more than `Q` lanes. -/
def haarRowsTogether (q width n : Nat) (inverse : Bool) (mat : Nat → α) : Nat → α :=
  let lanes := min width q
  if !inverse then (halving (rowsLevel s q lanes false) n n (mat, fun _ => 0)).1
  else (doubling (rowsLevel s q lanes true) n n 2 (mat, fun _ => 0)).1

/-- One level of `HaarColsTogether<Q>` on the vectors `values` and `scratch`. -/
def colsLevel (inverse : Bool) (len : Nat) (st : Buffers (Lanes α)) : Buffers (Lanes α) :=
  let half := len / 2
  let values := st.1
  let scratch := storeAll ((List.range half).flatMap fun r =>
    if !inverse then
      [(r, plus s (values (2 * r)) (values (2 * r + 1))),
        (half + r, minus s (values (2 * r)) (values (2 * r + 1)))]
    else
      [(2 * r, plus s (values r) (values (half + r))),
        (2 * r + 1, minus s (values r) (values (half + r)))]) st.2
  (storeRun 0 len scratch values, scratch)

/-- `CappedTag<float, 8>` columns at a time; lane `l` gathers column `c + l`. -/
def haarColsTogether (q width n : Nat) (inverse : Bool) (mat : Nat → α) : Nat → α :=
  let lanes := min width 8
  (List.range ((n + lanes - 1) / lanes)).foldl (fun mat block =>
    let c := block * lanes
    let values : Nat → Lanes α :=
      storeRun 0 q (fun r => fun l => mat (c * q + (l * q + r))) fun _ _ => 0
    let values :=
      if !inverse then (halving (colsLevel s false) q q (values, fun _ _ => 0)).1
      else (doubling (colsLevel s true) q q 2 (values, fun _ _ => 0)).1
    storeAll ((List.range q).flatMap fun r =>
      (List.range lanes).map fun l => (c * q + (l * q + r), values r l)) mat) mat

/-! ## Registers -/

/-- The even lanes of `lo` and then those of `hi`, in a vector of `2 * half` lanes. -/
def concatEven (half : Nat) (hi lo : Lanes α) : Lanes α :=
  fun l => if l < half then lo (2 * l) else hi (2 * (l - half))

def concatOdd (half : Nat) (hi lo : Lanes α) : Lanes α :=
  fun l => if l < half then lo (2 * l + 1) else hi (2 * (l - half) + 1)

def combine (half : Nat) (hi lo : Lanes α) : Lanes α :=
  fun l => if l < half then lo l else hi (l - half)

def lowerHalf (v : Lanes α) : Lanes α := v

def upperHalf (half : Nat) (v : Lanes α) : Lanes α := fun l => v (half + l)

def tableLookupLanes (v : Lanes α) (idx : List Nat) : Lanes α := fun l => v (idx.getD l 0)

/-- `IfThenElse(FirstN(d, count), yes, no)` -/
def firstN (count : Nat) (yes no : Lanes α) : Lanes α := fun l => if l < count then yes l else no l

def oddEven (odd even : Lanes α) : Lanes α := fun l => if l % 2 = 1 then odd l else even l

def haar16Zip8 (lo hi : Lanes α) : Lanes α :=
  tableLookupLanes (combine 8 hi lo) [0, 8, 1, 9, 2, 10, 3, 11, 4, 12, 5, 13, 6, 14, 7, 15]

def haar8Zip4 (lo hi : Lanes α) : Lanes α :=
  tableLookupLanes (combine 4 hi lo) [0, 4, 1, 5, 2, 6, 3, 7]

def haar4VecFwd (v : Lanes α) : Lanes α :=
  let even := tableLookupLanes v [0, 2, 0, 2]
  let odd := tableLookupLanes v [1, 3, 1, 3]
  let sums := plus s even odd
  let diffs := minus s even odd
  let pairs := firstN 2 sums diffs
  let root0 := tableLookupLanes pairs [0, 0, 2, 3]
  let root1 := tableLookupLanes pairs [1, 1, 2, 3]
  let rootSum := plus s root0 root1
  let rootDiff := minus s root0 root1
  firstN 2 (oddEven rootDiff rootSum) pairs

def haar4VecInv (v : Lanes α) : Lanes α :=
  let root0 := tableLookupLanes v [0, 0, 0, 0]
  let root1 := tableLookupLanes v [1, 1, 1, 1]
  let roots := oddEven (minus s root0 root1) (plus s root0 root1)
  let base := tableLookupLanes roots [0, 0, 1, 1]
  let detail := tableLookupLanes v [2, 2, 3, 3]
  oddEven (minus s base detail) (plus s base detail)

def haar16VecFwd (v : Lanes α) : Lanes α :=
  let even := concatEven 8 v v
  let odd := concatOdd 8 v v
  let v := combine 8 (lowerHalf (minus s even odd)) (lowerHalf (plus s even odd))
  let lo8 := lowerHalf v
  let hi8 := upperHalf 8 v
  let even8 := concatEven 4 lo8 lo8
  let odd8 := concatOdd 4 lo8 lo8
  let lo8 := combine 4 (lowerHalf (minus s even8 odd8)) (lowerHalf (plus s even8 odd8))
  let lo8 := combine 4 (upperHalf 4 lo8) (haar4VecFwd s (lowerHalf lo8))
  combine 8 hi8 lo8

def haar16VecInv (v : Lanes α) : Lanes α :=
  let lo8 := lowerHalf v
  let hi8 := upperHalf 8 v
  let lo4 := haar4VecInv s (lowerHalf lo8)
  let hi4 := upperHalf 4 lo8
  let lo8 := haar8Zip4 (plus s lo4 hi4) (minus s lo4 hi4)
  haar16Zip8 (plus s lo8 hi8) (minus s lo8 hi8)

/-- `Haar8Stage<Len, Inverse>` -/
def haar8Stage (len : Nat) (inverse : Bool) (v : Lanes α) : Lanes α :=
  let ai (i : Nat) := if inverse then i / 2 % (len / 2) else 2 * (i % (len / 2))
  let bi (i : Nat) := if inverse then i / 2 % (len / 2) + len / 2 else 2 * (i % (len / 2)) + 1
  let x := tableLookupLanes v ((List.range 8).map ai)
  let y := tableLookupLanes v ((List.range 8).map bi)
  let sums := plus s x y
  let diffs := minus s x y
  let stage := if inverse then oddEven diffs sums else firstN (len / 2) sums diffs
  firstN len stage v

/-- The new `lo` and `hi`. -/
def haar16Pair (inverse : Bool) (lo hi : Lanes α) : Lanes α × Lanes α :=
  if !inverse then
    let even := concatEven 4 hi lo
    let odd := concatOdd 4 hi lo
    let lo := plus s even odd
    let hi := minus s even odd
    (haar8Stage s 2 false (haar8Stage s 4 false (haar8Stage s 8 false lo)), hi)
  else
    let lo := haar8Stage s 8 true (haar8Stage s 4 true (haar8Stage s 2 true lo))
    let sums := plus s lo hi
    let diffs := minus s lo hi
    let il := [0, 0, 1, 1, 2, 2, 3, 3]
    let ih := [4, 4, 5, 5, 6, 6, 7, 7]
    (oddEven (tableLookupLanes diffs il) (tableLookupLanes sums il),
      oddEven (tableLookupLanes diffs ih) (tableLookupLanes sums ih))

def haar2dAvx24x16 (inverse : Bool) (mat : Nat → α) : Nat → α :=
  let a := loadInterleaved4 mat 0
  let b := loadInterleaved4 mat 32
  let a := if !inverse then haar4Vec s false a else a
  let b := if !inverse then haar4Vec s false b else b
  let (a0, b0) := haar16Pair s inverse a.v0 b.v0
  let (a1, b1) := haar16Pair s inverse a.v1 b.v1
  let (a2, b2) := haar16Pair s inverse a.v2 b.v2
  let (a3, b3) := haar16Pair s inverse a.v3 b.v3
  let a : Vec4 α := ⟨a0, a1, a2, a3⟩
  let b : Vec4 α := ⟨b0, b1, b2, b3⟩
  let a := if inverse then haar4Vec s true a else a
  let b := if inverse then haar4Vec s true b else b
  storeInterleaved4 8 b 32 (storeInterleaved4 8 a 0 mat)

/-! ## The variants -/

/-- What a build for one instruction set knows. -/
structure Target where
  /-- The base-2 logarithm of the lanes of a vector. -/
  log2Lanes : Nat
  /-- `HWY_TARGET == HWY_AVX3` -/
  avx3 : Bool
  /-- `HWY_TARGET == HWY_AVX2 && (NSS_AVX2_EXPERIMENT & 32)` -/
  avx2 : Bool
  /-- `HWY_MAX_BYTES >= 64` -/
  wide : Bool

def Target.lanes (t : Target) : Nat := 2 ^ t.log2Lanes

variable (t : Target)

def haar16InVec (inverse : Bool) (v : Lanes α) : Lanes α :=
  if t.wide && t.lanes == 16 then if inverse then haar16VecInv s v else haar16VecFwd s v
  else
    let tmp := storeRun 0 t.lanes v fun _ => 0
    storeRun 0 16 (transform1d s inverse tmp 16) tmp

def fastCols (q n : Nat) (inverse : Bool) (mat : Nat → α) : Nat → α :=
  if t.avx3 && q == 8 && decide (8 ≤ n) && n % 8 == 0 then haarColsTogether s 8 t.lanes n inverse mat
  else if t.avx3 && q == 16 && decide (8 ≤ n) && n % 8 == 0 then
    haarColsTogether s 16 t.lanes n inverse mat
  else if q = 4 then haarColsQ4 s t.lanes n inverse mat
  else if q = 2 then haarColsQ2 s t.lanes n mat
  else columnsByLine s inverse q n mat

def fastRows (q n : Nat) (inverse : Bool) (mat : Nat → α) : Nat → α :=
  if q = 8 then haarRowsTogether s 8 t.lanes n inverse mat
  else if q = 16 then haarRowsTogether s 16 t.lanes n inverse mat
  else if q = 4 ∧ 32 ≤ n then haarRowsTogether s 4 t.lanes n inverse mat
  else if t.avx3 && q == 2 && decide (8 ≤ n) then haarRowsTogether s 2 t.lanes n inverse mat
  else rowsByLine s inverse q n mat

def haar2dFast (q n : Nat) (inverse avx2Enabled : Bool) (mat : Nat → α) : Nat → α :=
  if t.avx2 && avx2Enabled && q == 4 && n == 16 then haar2dAvx24x16 s inverse mat
  else if inverse then fastCols s t q n inverse (fastRows s t q n inverse mat)
  else fastRows s t q n inverse (fastCols s t q n inverse mat)

def haar2d4x16 (inverse avx2Enabled : Bool) (mat : Nat → α) : Nat → α :=
  if t.lanes = 16 then
    let v := loadInterleaved4 mat 0
    let v : Vec4 α :=
      if !inverse then
        let v := haar4Vec s false v
        ⟨haar16InVec s t false v.v0, haar16InVec s t false v.v1, haar16InVec s t false v.v2,
          haar16InVec s t false v.v3⟩
      else
        haar4Vec s true ⟨haar16InVec s t true v.v0, haar16InVec s t true v.v1,
          haar16InVec s t true v.v2, haar16InVec s t true v.v3⟩
    storeInterleaved4 16 v 0 mat
  else haar2dFast s t 4 16 inverse avx2Enabled mat

/-- The dispatch of `NlhHaar2d`. -/
def nlhHaar2d (alignmentGeneric : Bool) (q n : Nat) (inverse : Bool) (mat : Nat → α) : Nat → α :=
  if alignmentGeneric then haar2dGeneric s q n inverse mat
  else if q = 4 ∧ n = 16 then haar2d4x16 s t inverse true mat
  else haar2dFast s t q n inverse true mat

end Definitions

end NssFactory.Cpu.NlhHaar
