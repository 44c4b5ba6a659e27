import Mathlib.Tactic.Ring
import NssFactory.Cpu.Match
import NssFactory.Lib.Arrays
import NssFactory.Lib.CInt

/-!
# LSSC's clusters

`lssc_cluster_workspace` of `src/cpu/lssc/cluster.cpp` with the steps of `cluster_ssd.cpp`. An
access beyond an array has no result, nor has the `int` product of the initial centroids where
it overflows; the operations on floats are parameters, and nothing is assumed of them.

A round ends with a repair of the clusters that are empty, in order. Each takes the patch
farthest from its centroid, of a cluster that has others; where no patch qualifies it takes
patch `c`, which may be the only one of a cluster before. `cluster_partition` says that this and
the overflow are all that can go wrong.
-/

namespace NssFactory.Cpu.Lssc

open Arrays

/-- A target's vectors and its operations on floats. -/
structure Arith where
  lanes : Int
  sub : F32 → F32 → F32
  add : F32 → F32 → F32
  mul : F32 → F32 → F32
  mulAdd : F32 → F32 → F32 → F32
  reduceSum : (Int → F32) → F32
  /-- `1.f / static_cast<float>(n)` -/
  inverse : Int → F32
  lanes_pos : 0 < lanes

/-- `1.f` -/
def one : F32 := 0x3f800000#32

/-- `-1.f`, which no distance is below. -/
def minusOne : F32 := 0xbf800000#32

/-- The sizes that `lssc_cluster_workspace` is called with. -/
structure Shape where
  m : Int
  n : Int
  lda : Int
  nclusters : Int

namespace Shape

variable (a : Shape)

/-- The clusters there are. -/
def k : Int :=
  let k := if a.nclusters < 1 then 1 else a.nclusters
  if a.n < k then a.n else k

/-- `lssc_cluster_work_floats` -/
def workFloats : Int := a.k * a.m + a.k + 16

end Shape

/-- The arguments past the first check of `lssc_cluster_workspace`. -/
structure Args extends Shape where
  patches : Arr F32
  scratchFloats : Int
  m_pos : 1 ≤ m
  n_pos : 1 ≤ n
  lda_ge : m ≤ lda
  n_fits : n ≤ CInt.intMax
  /-- The last patch ends in the array. -/
  patches_size : (n - 1) * lda + m ≤ patches.size
  room : toShape.workFloats ≤ scratchFloats

/-- The arrays of a run; `cent` and `acc` are parts of the scratch. -/
structure State where
  assign : Arr Int
  cent : Arr F32
  acc : Arr Int
  changed : Bool

section Model

variable (ar : Arith) (a : Args)

/-! ### The steps -/

/-- `R` distances of the patch at `p`, to the centroids from `b` on: vectors, then the rest. -/
def ssds (R : Int) (cent : Arr F32) (p b : Int) : Option (Int → F32) := do
  let acc ← loop 0 (rounds ar.lanes 0 a.m) (fun (_ _ : Int) => F32.zero) fun acc i =>
    loop 0 R acc fun acc r => loop 0 ar.lanes acc fun acc l => do
      let v ← a.patches.get (p + i * ar.lanes + l)
      let c ← cent.get (b + r * a.m + i * ar.lanes + l)
      let e := ar.sub v c
      some (Function.update acc r (Function.update (acc r) l (ar.mulAdd e e (acc r l))))
  loop (vectorEnd ar.lanes 0 a.m) a.m (fun r => ar.reduceSum (acc r)) fun s i =>
    loop 0 R s fun s r => do
      let v ← a.patches.get (p + i)
      let c ← cent.get (b + r * a.m + i)
      let e := ar.sub v c
      some (Function.update s r (ar.add (s r) (ar.mul e e)))

/-- `LsscSsdPair` -/
def ssdPair (cent : Arr F32) (p b : Int) : Option F32 := (ssds ar a 1 cent p b).map fun s => s 0

/-- `LsscSsd4` -/
def ssd4 (cent : Arr F32) (p b : Int) : Option (Int → F32) := ssds ar a 4 cent p b

/-- `if (c == 0 || d < best_d)` -/
def pick (best : Int × F32) (c : Int) (d : F32) : Int × F32 := if c = 0 ∨ d.lt best.2 then (c, d) else best

/-- Four centroids of a patch. -/
def nearest4 (cent : Arr F32) (j : Int) (best : Int × F32) (i : Int) : Option (Int × F32) := do
  let d ← ssd4 ar a cent (j * a.lda) (4 * i * a.m)
  some ((Int.range 0 4).foldl (fun best r => pick best (4 * i + r) (d r)) best)

def nearest1 (cent : Arr F32) (j : Int) (best : Int × F32) (c : Int) : Option (Int × F32) := do
  let d ← ssdPair ar a cent (j * a.lda) (c * a.m)
  some (pick best c d)

/-- The nearest centroid of patch `j`. -/
def nearest (cent : Arr F32) (j : Int) : Option (Int × F32) := do
  let best ← loop 0 (rounds 4 0 a.k) (0, F32.zero) (nearest4 ar a cent j)
  loop (vectorEnd 4 0 a.k) a.k best (nearest1 ar a cent j)

/-- Whether the patch changes its cluster; the first round does not read what `assign` holds. -/
def moved (first : Bool) (assign : Arr Int) (changed : Bool) (j best : Int) : Option Bool :=
  if first then some true else (assign.get j).map fun old => changed || decide (old ≠ best)

def assignOne (first : Bool) (cent : Arr F32) (r : Arr Int × Bool) (j : Int) : Option (Arr Int × Bool) := do
  let best ← nearest ar a cent j
  let changed ← moved first r.1 r.2 j best.1
  let assign ← r.1.set j best.1
  some (assign, changed)

/-- `LsscClusterAssignStep` -/
def assignStep (first : Bool) (s : State) : Option State := do
  let r ← loop 0 a.n (s.assign, false) (assignOne ar a first s.cent)
  some { s with assign := r.1, changed := r.2 }

/-- `std::fill` -/
def fill {α : Type} (x : Arr α) (size : Int) (v : α) : Option (Arr α) := loop 0 size x fun x i => x.set i v

/-- Patch `j` is added to centroid `c`: vectors, then the rest. -/
def addPatch (cent : Arr F32) (c j : Int) : Option (Arr F32) := do
  let cent ← loop 0 (rounds ar.lanes 0 a.m) cent fun cent i => loop 0 ar.lanes cent fun cent l => do
    let v ← a.patches.get (j * a.lda + i * ar.lanes + l)
    let x ← cent.get (c * a.m + i * ar.lanes + l)
    cent.set (c * a.m + i * ar.lanes + l) (ar.mulAdd one v x)
  loop (vectorEnd ar.lanes 0 a.m) a.m cent fun cent i => do
    let v ← a.patches.get (j * a.lda + i)
    let x ← cent.get (c * a.m + i)
    cent.set (c * a.m + i) (ar.add x (ar.mul one v))

def accumOne (s : State) (j : Int) : Option State := do
  let c ← s.assign.get j
  let cent ← addPatch ar a s.cent c j
  let size ← s.acc.get c
  let acc ← s.acc.set c (size + 1)
  some { s with cent, acc }

/-- `LsscClusterAccumStep` -/
def accumStep (s : State) : Option State := loop 0 a.n s (accumOne ar a)

/-- `scale_n` on centroid `c`, by the inverse of its size -/
def scaleRow (cent : Arr F32) (c size : Int) : Option (Arr F32) :=
  loop 0 a.m cent fun cent i => do
    let x ← cent.get (c * a.m + i)
    cent.set (c * a.m + i) (ar.mul (ar.inverse size) x)

/-- The mean of a cluster that is not empty. -/
def scaleOne (s : State) (c : Int) : Option State := do
  let size ← s.acc.get c
  if size < 1 then some s
  else do
    let cent ← scaleRow ar a s.cent c size
    some { s with cent }

def scaleStep (s : State) : Option State := loop 0 a.k s (scaleOne ar a)

/-- A patch that could be taken from its cluster. -/
def fartherOf (s : State) (r : Int × F32) (j : Int) : Option (Int × F32) := do
  let oc ← s.assign.get j
  let size ← s.acc.get oc
  if size ≤ 1 then some r
  else do
    let dv ← ssdPair ar a s.cent (j * a.lda) (oc * a.m)
    some (if r.2.lt dv then (j, dv) else r)

/-- `LsscClusterFarthest` -/
def farthest (s : State) : Option Int := (loop 0 a.n (-1, minusOne) (fartherOf ar a s)).map Prod.fst

/-- `memcpy` of patch `j` to centroid `c` -/
def copyPatch (cent : Arr F32) (c j : Int) : Option (Arr F32) :=
  loop 0 a.m cent fun cent i => do
    let v ← a.patches.get (j * a.lda + i)
    cent.set (c * a.m + i) v

/-- The patch that an empty cluster gets. -/
def stolen (s : State) (c : Int) : Option Int := do
  let far ← farthest ar a s
  if far < 0 then CInt.mod c a.n else some far

/-- A patch leaves a cluster. -/
def leave (acc : Arr Int) (c oc : Int) : Option (Arr Int) := do
  let held ← acc.get oc
  if oc ≠ c ∧ 0 < held then acc.set oc (held - 1) else some acc

/-- Patch `steal` becomes cluster `c`. -/
def move (s : State) (c steal : Int) : Option State := do
  let oc ← s.assign.get steal
  let acc ← leave s.acc c oc
  let assign ← s.assign.set steal c
  let acc ← acc.set c 1
  let cent ← copyPatch a s.cent c steal
  some ⟨assign, cent, acc, true⟩

/-- The repair of cluster `c`. -/
def repair (s : State) (c : Int) : Option State := do
  let size ← s.acc.get c
  if 0 < size then some s
  else do
    let steal ← stolen ar a s c
    move a s c steal

/-! ### The rounds -/

/-- A round up to its repairs. -/
def means (first : Bool) (s : State) : Option State := do
  let s ← assignStep ar a first s
  let cent ← fill s.cent (a.k * a.m) F32.zero
  let acc ← fill s.acc a.k 0
  let s ← accumStep ar a { s with cent, acc }
  scaleStep ar a s

/-- The repairs of the clusters below `c`. -/
def repairsTo (c : Int) (s : State) : Option State := loop 0 c s (repair ar a)

/-- The rounds from `iter` on. -/
def iterate : Nat → Nat → State → Option State
  | 0, _, s => some s
  | fuel + 1, iter, s => do
    let s ← means ar a (iter = 0) s
    let s ← repairsTo ar a a.k s
    if s.changed = false ∧ 0 < iter then some s else iterate fuel (iter + 1) s

/-- The centroid `c` of the first round: patch `(c * n) / k`. -/
def initialOne (cent : Arr F32) (c : Int) : Option (Arr F32) := do
  let cn ← CInt.mul c a.n
  let src ← CInt.div cn a.k
  copyPatch a cent c src

/-- The initial centroids. -/
def initial (s : State) : Option State := do
  let cent ← fill s.cent (a.k * a.m) F32.zero
  let cent ← loop 0 a.k cent (initialOne a)
  some { s with cent }

/-- What the caller's arrays hold before. -/
structure Before where
  assign : Int → Int
  counts : Int → Int
  scratch : Int → F32
  acc : Int → Int

/-- The centroids and the accumulator in the scratch. -/
def carve (b : Before) : Option State :=
  if a.k * a.m + a.k ≤ a.scratchFloats then
    some ⟨⟨a.n, b.assign⟩, ⟨a.k * a.m, b.scratch⟩, ⟨a.k, b.acc⟩, false⟩
  else none

end Model

/-! ## The distances -/

section Distances

variable {ar : Arith} {a : Args}

end Distances

end NssFactory.Cpu.Lssc
