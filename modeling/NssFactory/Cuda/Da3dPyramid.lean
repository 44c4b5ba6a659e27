import NssFactory.Cpu.Da3dTiles
import NssFactory.Lib.Shuffles

/-!
# The weight pyramid of CUDA DA3D

The levels of `da3d_tile_kernel` (`cuda/da3d/kernels.cu`), the selection of the next pixel and
the update after its patch. Levels below `kSharedLevel` lie in global memory, the others in
`swm`; each is an array of its own here, an access outside of it returns none, and `lvOff`
places them.

A core of at least 16 x 16 takes the fast path: the update writes levels `0`, `3` and `4` square
by square, a warp a square and a lane a row of it, the levels above are refreshed before the next
selection over the squares that the last patch touched, and levels `1` and `2` are not kept. The
walk stops at level `3`, below it the least key of weight and quadrants is taken. Any other core
takes the plain path, which refreshes every level.

`W` stands for the floats a weight can be, as in `WeightMap`.
-/

namespace NssFactory.Cuda.Da3d

open NssFactory.Da3d (WeightMap Patch nextPow2 side shrunk align16 levelCount)
open CInt Shuffles

/-! ## Levels -/

def kSharedLevel : Nat := 3

def kSharedLevelFloats : Nat := 1536

/-- `dev_bits`: `__clz` counts the zeros above the highest bit. -/
def devBits (n : Nat) : Nat := if n = 0 then 0 else n.log2 + 1

/-- The counters of the loop that lays out the levels. -/
structure Cursor where
  rr : Nat
  cr : Nat
  off : Nat
  soff : Nat

def Cursor.next (l : Nat) (c : Cursor) : Cursor where
  rr := ((c.rr + 3) >>> 2) <<< 1
  cr := ((c.cr + 3) >>> 2) <<< 1
  off := c.off + align16 (c.rr * c.cr)
  soff := if kSharedLevel ≤ l then c.soff + (c.rr * c.cr + 3) / 4 * 4 else c.soff

def cursor (h w : Nat) : Nat → Cursor
  | 0 => ⟨nextPow2 h, nextPow2 w, 0, 0⟩
  | l + 1 => (cursor h w l).next l

/-- `lv_off`, in `swm` from `kSharedLevel` on and in the tile's part of `wm` below. -/
def lvOff (h w l : Nat) : Nat := if kSharedLevel ≤ l then (cursor h w l).soff else (cursor h w l).off

/-- `levels`. -/
def levels (h w : Nat) : Nat := max (devBits (h - 1) + 1) (devBits (w - 1) + 1)

/-! ## Rectangles -/

/-- Core rows and columns from the first to the last. -/
structure Rect where
  firstR : Int
  lastR : Int
  firstC : Int
  lastC : Int

namespace Rect

/-- `prev_fr` to `prev_lc` before the first patch. -/
def empty : Rect := ⟨0, -1, 0, -1⟩

variable (q : Rect) (l : Nat)

def columns : Int := (q.lastC >>> l) - (q.firstC >>> l) + 1

/-- `nr * nc` cells of level `l` stand over the rectangle. -/
def count : Nat := (((q.lastR >>> l) - (q.firstR >>> l) + 1) * q.columns l).toNat

/-- Number `i` of them. -/
def cell (i : Nat) : Nat × Nat :=
  (((q.firstR >>> l) + i / q.columns l).toNat, ((q.firstC >>> l) + i % q.columns l).toNat)

end Rect

variable {W : Type}

/-- Where a patch covers the core. -/
def rectOf (h w : Nat) (p : Patch W) : Rect where
  firstR := max 0 ((p.row : Int) - 31)
  lastR := min (h : Int) ((p.row : Int) - 31 + 64) - 1
  firstC := max 0 ((p.col : Int) - 31)
  lastC := min (w : Int) ((p.col : Int) - 31 + 64) - 1

/-- The levels, and the last patch's core rows and columns. -/
structure Pyramid (W : Type) where
  map : WeightMap W
  prev : Rect

/-- `k^2` in the idle transform buffer, rows of `kPitch`. -/
def staged (k : Nat → W) (i : Nat) : W := k (i / 65 * 64 + i % 65)

variable [LinearOrder W]

/-- What the kernel starts from. -/
def start [OrderTop W] [Zero W] (h w : Nat) : Pyramid W where
  map :=
    { levels := levels h w, width := w, height := h
      rows := fun l => (cursor h w l).rr, cols := fun l => (cursor h w l).cr
      data := fun l i => if i / (cursor h w l).cr < shrunk h l ∧ i % (cursor h w l).cr < shrunk w l then 0 else ⊤ }
  prev := Rect.empty

/-- A value of level `l` from the four below. -/
def minOfSquare (l : Nat) (m : WeightMap W) (q : Nat × Nat) : Option (WeightMap W) := do
  let a ← m.entry (l - 1) (2 * q.1) (2 * q.2)
  let b ← m.entry (l - 1) (2 * q.1) (2 * q.2 + 1)
  let a' ← m.entry (l - 1) (2 * q.1 + 1) (2 * q.2)
  let b' ← m.entry (l - 1) (2 * q.1 + 1) (2 * q.2 + 1)
  m.put l q.1 q.2 (min (min a b) (min a' b'))

def refreshLevel (q : Rect) (m : WeightMap W) (l : Nat) : Option (WeightMap W) :=
  ((List.range (q.count l)).map (q.cell l)).foldlM (minOfSquare l) m

/-- The levels from `first` on over a rectangle. -/
def refresh (first : Nat) (q : Rect) (m : WeightMap W) : Option (WeightMap W) :=
  between first (m.levels - 1) m (refreshLevel q)

/-! ## The selection -/

/-- `quadrant_key` -/
def quadrantKey (lr lc : Nat) : Nat :=
  (lr &&& 1) ||| (lc &&& 1) <<< 1 ||| (lr &&& 2) <<< 1 ||| (lc &&& 2) <<< 2 ||| (lr &&& 4) <<< 2 ||| (lc &&& 4) <<< 3

/-- `key_row` -/
def keyRow (k : Nat) : Nat := (k &&& 1) ||| (k >>> 1 &&& 2) ||| (k >>> 2 &&& 4)

/-- `key_col` -/
def keyCol (k : Nat) : Nat := (k >>> 1 &&& 1) ||| (k >>> 2 &&& 2) ||| (k >>> 3 &&& 4)

/-- Of two keys the least one. -/
def better (a b : W × Nat) : W × Nat := if b.1 < a.1 ∨ b.1 = a.1 ∧ b.2 < a.2 then b else a

/-- The two weights of a lane. -/
def laneKey (m : WeightMap W) (r c lane : Nat) : Option (W × Nat) := do
  let lr0 := lane >>> 3
  let lc0 := lane &&& 7
  let v ← m.entry 0 (8 * r + lr0) (8 * c + lc0)
  let v1 ← m.entry 0 (8 * r + lr0 + 4) (8 * c + lc0)
  some (better (v, quadrantKey lr0 lc0) (v1, quadrantKey (lr0 + 4) lc0))

/-- The least key of a square of level `3`. -/
def squareKey [OrderTop W] (m : WeightMap W) (q : Nat × Nat) : Option (W × Nat) := do
  let keys ← (List.range 32).mapM (laneKey m q.1 q.2)
  some (shuffled better warp (fun lane => keys.getD lane (⊤, 0)) 0)

/-- `sh_go`, and `sh_pr` with `sh_pc`. -/
structure Choice where
  go : Bool
  pixel : Nat × Nat

/-- The selection of warp 0. -/
def fastSelect [OrderTop W] (threshold : W) (s : Pyramid W) : Option (Choice × Pyramid W) := do
  let m ← refresh (kSharedLevel + 2) s.prev s.map
  let top ← m.minimum
  let q ← (List.range' kSharedLevel (m.levels - 1 - kSharedLevel)).reverse.foldlM
    (fun q l => m.leastOfSquare l q) (0, 0)
  let key ← squareKey m q
  some (⟨decide (top < threshold), 8 * q.1 + keyRow key.2, 8 * q.2 + keyCol key.2⟩, ⟨m, s.prev⟩)

/-- The selection of thread 0, the walk of `find_minimum`. -/
def plainSelect (threshold : W) (s : Pyramid W) : Option (Choice × Pyramid W) := do
  let top ← s.map.minimum
  let q ← s.map.findMinimum
  some (⟨decide (top < threshold), q⟩, s)

/-! ## The update -/

section Update

variable [Add W]

def laneRow (R4 lane : Nat) : Nat := 16 * R4 + 8 * (lane >>> 3 &&& 1) + (lane &&& 7)

def laneCol (C4 lane : Nat) : Nat := 16 * C4 + 8 * (lane >>> 4)

/-- Whether the patch covers some of the eight weights from `(r, cb)` on. -/
def touched (q : Rect) (r cb : Nat) : Bool :=
  decide (q.firstR ≤ r ∧ r ≤ q.lastR ∧ cb ≤ q.lastC ∧ q.firstC ≤ cb + 7)

/-- `add` of a weight at `(r, c)`. -/
def raised (q : Rect) (p : Patch W) (r c : Nat) (x : W) : W :=
  if q.firstC ≤ c ∧ c ≤ q.lastC then
    x + staged p.k (((r : Int) - ((p.row : Int) - 31)) * 65 - ((p.col : Int) - 31) + c).toNat
  else x

/-- A lane's weights after the patch. -/
def laneWeight (q : Rect) (p : Patch W) (R4 C4 lane : Nat) (x : W) (t : Nat) : W :=
  if touched q (laneRow R4 lane) (laneCol C4 lane) then
    raised q p (laneRow R4 lane) (laneCol C4 lane + t) x
  else x

/-- The stores of a lane. -/
def storeRow (q : Rect) (R4 C4 : Nat) (x : Nat → Nat → W) (m : WeightMap W) (lane : Nat) : Option (WeightMap W) :=
  if touched q (laneRow R4 lane) (laneCol C4 lane) then
    (List.range 8).foldlM (fun m t => m.put 0 (laneRow R4 lane) (laneCol C4 lane + t) (x lane t)) m
  else some m

/-- The minimum of a lane's eight. -/
def rowMin (x : Nat → W) : W :=
  min (min (min (x 0) (x 1)) (min (x 2) (x 3))) (min (min (x 4) (x 5)) (min (x 6) (x 7)))

/-- What a warp stores of a square of level `4`: level `0` where the patch is, and both minima. -/
def storeSquare (q : Rect) (R : Nat × Nat) (x : Nat → Nat → W) (m : WeightMap W) : Option (WeightMap W) := do
  let m ← (List.range 32).foldlM (storeRow q R.1 R.2 x) m
  let least3 := shuffled min [1, 2, 4] fun lane => rowMin (x lane)
  let m ← ((List.range 32).filter fun lane => lane &&& 7 = 0).foldlM (fun m lane =>
    m.put kSharedLevel (2 * R.1 + (lane >>> 3 &&& 1)) (2 * R.2 + lane >>> 4) (least3 lane)) m
  m.put (kSharedLevel + 1) R.1 R.2 (shuffled min [8, 16] least3 0)

/-- A warp's square of level `4`. -/
def squareStep [OrderTop W] (q : Rect) (p : Patch W) (m : WeightMap W) (R : Nat × Nat) : Option (WeightMap W) := do
  let loaded ← (List.range 32).mapM fun lane => (List.range 8).mapM fun t =>
    m.entry 0 (laneRow R.1 lane) (laneCol R.2 lane + t)
  storeSquare q R (fun lane t => laneWeight q p R.1 R.2 lane ((loaded.getD lane []).getD t ⊤) t) m

/-- The update of the fast path; `order` is the order in which the warps come to their squares. -/
def fastUpdate [OrderTop W] (order : Nat → List Nat) (p : Patch W) (s : Pyramid W) : Option (Pyramid W) := do
  let q := rectOf s.map.height s.map.width p
  let m ← ((order (q.count 4)).map (q.cell 4)).foldlM (squareStep q p) s.map
  some ⟨m, q⟩

/-- Element `i` of the patch, added to level `0`. -/
def addElement (q : Rect) (p : Patch W) (m : WeightMap W) (i : Nat) : Option (WeightMap W) :=
  let r := (p.row : Int) - 31 + (i / 64 : Nat)
  let c := (p.col : Int) - 31 + (i % 64 : Nat)
  if (q.firstC ≤ c ∧ c ≤ q.lastC) ∧ q.firstR ≤ r ∧ r ≤ q.lastR then do
    let old ← m.entry 0 r.toNat c.toNat
    m.put 0 r.toNat c.toNat (old + p.k i)
  else some m

/-- The update of the plain path. -/
def plainUpdate (p : Patch W) (s : Pyramid W) : Option (Pyramid W) := do
  let q := rectOf s.map.height s.map.width p
  let m ← (List.range 4096).foldlM (addElement q p) s.map
  let m ← refresh 1 q m
  some ⟨m, s.prev⟩

end Update

/-! ## The two paths -/

/-- `fast_pyramid` -/
def fastPyramid (s : Pyramid W) : Bool := decide (16 ≤ s.map.height ∧ 16 ≤ s.map.width)

def select [OrderTop W] (threshold : W) (s : Pyramid W) : Option (Choice × Pyramid W) :=
  if fastPyramid s then fastSelect threshold s else plainSelect threshold s

def update [OrderTop W] [Add W] (order : Nat → List Nat) (p : Patch W) (s : Pyramid W) : Option (Pyramid W) :=
  if fastPyramid s then fastUpdate order p s else plainUpdate p s

/-- A selection and the update after it, for any patch. -/
def pass [OrderTop W] [Add W] (order : Nat → List Nat) (threshold : W) (s : Pyramid W) (p : Patch W) :
    Option (Pyramid W) := do
  let (_, s) ← select threshold s
  update order p s

/-- The pyramid after some patches. -/
def after [OrderTop W] [AddZeroClass W] (order : Nat → List Nat) (threshold : W) (h w : Nat)
    (calls : List (Patch W)) : Option (Pyramid W) :=
  calls.foldlM (pass order threshold) (start h w)

/-! ## Where the levels lie -/

section Layout

variable {h w h' w' l l' : Nat}

theorem devBits_eq (n : Nat) : devBits n = n.size := by
  rw [devBits]
  split_ifs with hn
  · simp [hn]
  · refine le_antisymm (Nat.lt_size.mpr (Nat.log2_self_le hn)) (Nat.size_le.mpr Nat.lt_log2_self)

theorem levels_eq (h w : Nat) : levels h w = levelCount h w := by
  simp only [levels, levelCount, devBits_eq, Da3d.numberOfBits_eq]

theorem cursor_rr (h w l : Nat) : (cursor h w l).rr = side (nextPow2 h) l := by
  induction l with
  | zero => rfl
  | succ l ih => rw [cursor, Cursor.next, ih, side]

theorem cursor_cr (h w l : Nat) : (cursor h w l).cr = side (nextPow2 w) l := by
  induction l with
  | zero => rfl
  | succ l ih => rw [cursor, Cursor.next, ih, side]

/-- The floats of a level. -/
def area (h w l : Nat) : Nat := (cursor h w l).rr * (cursor h w l).cr

theorem off_succ (h w l : Nat) : (cursor h w (l + 1)).off = (cursor h w l).off + align16 (area h w l) := rfl

theorem soff_succ (hl : kSharedLevel ≤ l) :
    (cursor h w (l + 1)).soff = (cursor h w l).soff + (area h w l + 3) / 4 * 4 := by
  rw [cursor, Cursor.next, if_pos hl]
  rfl

/-- A level ends before the cursor of the next. -/
theorem lvOff_add_le (hl : l < l') (hsame : kSharedLevel ≤ l ↔ kSharedLevel ≤ l') :
    lvOff h w l + area h w l ≤ lvOff h w l' := by
  induction l', hl using Nat.le_induction with
  | base =>
    by_cases hshared : kSharedLevel ≤ l
    · rw [lvOff, lvOff, if_pos hshared, if_pos (hsame.mp hshared), soff_succ hshared]
      omega
    · rw [lvOff, lvOff, if_neg hshared, if_neg (mt hsame.mpr hshared), off_succ]
      have := Da3d.le_align16 (area h w l)
      omega
  | succ k hk ih =>
    have hmid : kSharedLevel ≤ l ↔ kSharedLevel ≤ k := by
      constructor
      · omega
      · intro h'
        exact hsame.mpr (by omega)
    have hstep : lvOff h w k ≤ lvOff h w (k + 1) := by
      by_cases hshared : kSharedLevel ≤ k
      · rw [lvOff, lvOff, if_pos hshared, if_pos (by omega), soff_succ hshared]
        omega
      · rw [lvOff, lvOff, if_neg hshared, if_neg (fun h' => hshared (hmid.mp (hsame.mpr h'))), off_succ]
        omega
    exact (ih hmid).trans hstep

theorem area_mono (hh : 1 ≤ h) (hle : h ≤ h') (hmax : h' ≤ 2 ^ 32) (hw : 1 ≤ w) (hle' : w ≤ w')
    (hmax' : w' ≤ 2 ^ 32) (l : Nat) : area h w l ≤ area h' w' l := by
  simp only [area, cursor_rr, cursor_cr]
  exact Nat.mul_le_mul (Da3d.side_mono (Da3d.nextPow2_mono hh hle hmax) l)
    (Da3d.side_mono (Da3d.nextPow2_mono hw hle' hmax') l)

theorem soff_mono (hh : 1 ≤ h) (hle : h ≤ h') (hmax : h' ≤ 2 ^ 32) (hw : 1 ≤ w) (hle' : w ≤ w')
    (hmax' : w' ≤ 2 ^ 32) (l : Nat) : (cursor h w l).soff ≤ (cursor h' w' l).soff := by
  induction l with
  | zero => exact Nat.le_refl 0
  | succ l ih =>
    by_cases hshared : kSharedLevel ≤ l
    · have := area_mono hh hle hmax hw hle' hmax' l
      rw [soff_succ hshared, soff_succ hshared]
      omega
    · rw [cursor, cursor, Cursor.next, Cursor.next, if_neg hshared, if_neg hshared]
      exact ih

theorem soff_le (h : l ≤ l') (x y : Nat) : (cursor x y l).soff ≤ (cursor x y l').soff := by
  induction l', h using Nat.le_induction with
  | base => exact Nat.le_refl _
  | succ k hk ih =>
    refine ih.trans ?_
    rw [cursor, Cursor.next]
    split_ifs
    · exact Nat.le_add_right _ _
    · exact Nat.le_refl _

/-- The levels above global memory of the largest tile. -/
theorem soff_largest : (cursor 191 191 9).soff ≤ kSharedLevelFloats := by decide

theorem levels_le (hh : h ≤ 191) (hw : w ≤ 191) : levels h w ≤ 9 := by
  have hsize : ∀ n ≤ 191, (n - 1).size ≤ 8 := fun n hn => Nat.size_le.mpr (by omega)
  have := hsize h hh
  have := hsize w hw
  rw [levels, devBits_eq, devBits_eq]
  omega

theorem off_eq (h w l : Nat) :
    (cursor h w l).off = ((List.range l).map fun k => align16 (area h w k)).sum := by
  induction l with
  | zero => rfl
  | succ l ih =>
    rw [off_succ, ih, List.range_succ, List.map_append, List.sum_append, List.map_singleton, List.sum_singleton]

theorem off_levels (h w : Nat) : (cursor h w (levels h w)).off = Da3d.weightMapFloats h w := by
  rw [off_eq, levels_eq]
  simp only [Da3d.weightMapFloats, Da3d.levelSizes, List.map_map, area, cursor_rr, cursor_cr]
  rfl

/-- The levels lie apart, each within the memory it is in. -/
structure Fits (h w : Nat) : Prop where
  apart : ∀ l l', l < l' → l' < levels h w → (kSharedLevel ≤ l ↔ kSharedLevel ≤ l') →
    lvOff h w l + area h w l ≤ lvOff h w l'
  shared : ∀ l < levels h w, kSharedLevel ≤ l → lvOff h w l + area h w l ≤ kSharedLevelFloats
  own : ∀ l < levels h w, l < kSharedLevel → lvOff h w l + area h w l ≤ Da3d.weightMapFloats h w

theorem fits (hh : 1 ≤ h) (hh' : h ≤ 191) (hw : 1 ≤ w) (hw' : w ≤ 191) : Fits h w := by
  refine ⟨fun l l' hl _ hsame => lvOff_add_le hl hsame, fun l hl hshared => ?_, fun l hl hown => ?_⟩
  · have hlevels := levels_le hh' hw'
    calc lvOff h w l + area h w l ≤ lvOff h w (l + 1) := lvOff_add_le (Nat.lt_succ_self l) (by omega)
      _ = (cursor h w (l + 1)).soff := if_pos (by omega)
      _ ≤ (cursor 191 191 (l + 1)).soff := soff_mono hh hh' (by decide) hw hw' (by decide) _
      _ ≤ (cursor 191 191 9).soff := soff_le (by omega) _ _
      _ ≤ kSharedLevelFloats := soff_largest
  · have hle : (cursor h w (l + 1)).off ≤ (cursor h w (levels h w)).off := by
      rw [off_eq, off_eq]
      exact ((List.range_sublist.mpr hl).map _).sum_le_sum fun _ _ => Nat.zero_le _
    have := Da3d.le_align16 (area h w l)
    rw [off_levels, off_succ] at hle
    rw [lvOff, if_neg (by omega)]
    omega

end Layout

/-! ## Writes

`Written m m' S v`: `m'` is `m` with the value `v` in the cells of `S`, which lie in their levels. -/

section Writes

open NssFactory.Da3d (Shape put_spec)

/-- A set of cells. -/
abbrev CellSet := Nat → Nat → Nat → Prop

structure Written (m m' : WeightMap W) (S : CellSet) (v : Nat → Nat → Nat → W) : Prop where
  shape : Shape m m'
  fresh : ∀ l r c, r < m.rows l → c < m.cols l → S l r c → m'.entry l r c = some (v l r c)
  stale : ∀ l r c, r < m.rows l → c < m.cols l → ¬S l r c → m'.entry l r c = m.entry l r c

variable {m m' m'' : WeightMap W} {S S' : CellSet} {v : Nat → Nat → Nat → W} {l r c : Nat}

omit [LinearOrder W] in
theorem Written.refl (m : WeightMap W) (v : Nat → Nat → Nat → W) : Written m m (fun _ _ _ => False) v :=
  ⟨Shape.refl m, fun _ _ _ _ _ h => h.elim, fun _ _ _ _ _ _ => rfl⟩

omit [LinearOrder W] in
theorem Written.congr (h : Written m m' S v) (hS : ∀ l r c, S l r c ↔ S' l r c) : Written m m' S' v :=
  ⟨h.shape, fun l r c hr hc hin => h.fresh l r c hr hc ((hS l r c).mpr hin),
    fun l r c hr hc hout => h.stale l r c hr hc fun hin => hout ((hS l r c).mp hin)⟩

omit [LinearOrder W] in
theorem Written.trans (h : Written m m' S v) (h' : Written m' m'' S' v) :
    Written m m'' (fun l r c => S l r c ∨ S' l r c) v := by
  refine ⟨h.shape.trans h'.shape, fun l r c hr hc hin => ?_, fun l r c hr hc hout => ?_⟩
  · have hr' : r < m'.rows l := h.shape.rows.symm ▸ hr
    have hc' : c < m'.cols l := h.shape.cols.symm ▸ hc
    by_cases hlast : S' l r c
    · exact h'.fresh l r c hr' hc' hlast
    · rw [h'.stale l r c hr' hc' hlast]
      exact h.fresh l r c hr hc (hin.resolve_right hlast)
  · have hr' : r < m'.rows l := h.shape.rows.symm ▸ hr
    have hc' : c < m'.cols l := h.shape.cols.symm ▸ hc
    rw [h'.stale l r c hr' hc' fun hin => hout (.inr hin)]
    exact h.stale l r c hr hc fun hin => hout (.inl hin)

omit [LinearOrder W] in
theorem written_put (hr : r < m.rows l) (hc : c < m.cols l) {x : W} (hx : x = v l r c) :
    ∃ m', m.put l r c x = some m' ∧ Written m m' (fun l' r' c' => l' = l ∧ r' = r ∧ c' = c) v := by
  obtain ⟨m', hput, hshape, hcell, hother⟩ := put_spec hr hc x
  refine ⟨m', hput, hshape, ?_, fun l' r' c' hr' hc' hne => hother l' r' c' hr' hc' hne⟩
  rintro _ _ _ - - ⟨rfl, rfl, rfl⟩
  rw [hcell, hx]

omit [LinearOrder W] in
/-- A loop whose rounds write cells, each of its own values; a round finds the cells of the
rounds before it written. -/
theorem written_foldlM {ι : Type} {items : List ι} {body : WeightMap W → ι → Option (WeightMap W)}
    {cells : ι → CellSet}
    (round : ∀ done x rest, items = done ++ x :: rest → ∀ s,
      Written m s (fun l r c => ∃ y ∈ done, cells y l r c) v →
      ∃ s', body s x = some s' ∧ Written s s' (cells x) v) :
    ∃ m', items.foldlM body m = some m' ∧ Written m m' (fun l r c => ∃ x ∈ items, cells x l r c) v := by
  have hrest : ∀ rest done s, items = done ++ rest → Written m s (fun l r c => ∃ y ∈ done, cells y l r c) v →
      ∃ m', rest.foldlM body s = some m' ∧ Written m m' (fun l r c => ∃ x ∈ items, cells x l r c) v := by
    intro rest
    induction rest with
    | nil =>
      intro done s hitems hs
      rw [List.append_nil] at hitems
      exact ⟨s, rfl, hitems ▸ hs⟩
    | cons x rest ih =>
      intro done s hitems hs
      obtain ⟨s', hbody, hs'⟩ := round done x rest hitems s hs
      obtain ⟨m', hloop, hm'⟩ := ih (done ++ [x]) s' (by simp [hitems]) ((hs.trans hs').congr fun l r c => by
        simp only [List.mem_append, List.mem_singleton]
        constructor
        · rintro (⟨y, hy, hin⟩ | hin)
          · exact ⟨y, .inl hy, hin⟩
          · exact ⟨x, .inr rfl, hin⟩
        · rintro ⟨y, hy | rfl, hin⟩
          · exact .inl ⟨y, hy, hin⟩
          · exact .inr hin)
      refine ⟨m', ?_, hm'⟩
      rw [List.foldlM_cons, hbody]
      exact hloop
  exact hrest items [] m rfl ((Written.refl m v).congr fun l r c => by simp)

end Writes

/-! ## Rectangles of cells -/

section Rectangles

open NssFactory.Da3d (Within)

/-- The cells of level `l` over a rectangle. -/
def Rect.Over (q : Rect) (l r c : Nat) : Prop := (r, c) ∈ (List.range (q.count l)).map (q.cell l)

/-- The rectangles the kernel has: none yet, or one of core pixels. -/
inductive Rect.Placed (h w : Nat) : Rect → Prop
  | empty : Placed h w Rect.empty
  | core {fr lr fc lc : Nat} (hr : fr ≤ lr) (hlr : lr < h) (hc : fc ≤ lc) (hlc : lc < w) :
      Placed h w ⟨fr, lr, fc, lc⟩

variable {fr lr fc lc l r c h w : Nat} {q : Rect}

theorem cast_shiftRight (n l : Nat) : (n : Int) >>> l = ((n / 2 ^ l : Nat) : Int) := by
  rw [Int.shiftRight_eq_div_pow]
  norm_cast

theorem columns_core (hc : fc ≤ lc) (l : Nat) :
    Rect.columns ⟨fr, lr, fc, lc⟩ l = ((lc / 2 ^ l - fc / 2 ^ l + 1 : Nat) : Int) := by
  have := Nat.div_le_div_right (c := 2 ^ l) hc
  simp only [Rect.columns, cast_shiftRight]
  omega

theorem count_core (hr : fr ≤ lr) (hc : fc ≤ lc) (l : Nat) :
    Rect.count ⟨fr, lr, fc, lc⟩ l = (lr / 2 ^ l - fr / 2 ^ l + 1) * (lc / 2 ^ l - fc / 2 ^ l + 1) := by
  have := Nat.div_le_div_right (c := 2 ^ l) hr
  have hrows : (((lr : Int) >>> l) - ((fr : Int) >>> l) + 1) = ((lr / 2 ^ l - fr / 2 ^ l + 1 : Nat) : Int) := by
    simp only [cast_shiftRight]
    omega
  rw [Rect.count, columns_core hc, hrows, ← Int.natCast_mul, Int.toNat_natCast]

theorem cell_core (hc : fc ≤ lc) (l i : Nat) :
    Rect.cell ⟨fr, lr, fc, lc⟩ l i =
      (fr / 2 ^ l + i / (lc / 2 ^ l - fc / 2 ^ l + 1), fc / 2 ^ l + i % (lc / 2 ^ l - fc / 2 ^ l + 1)) := by
  rw [Rect.cell, columns_core hc, cast_shiftRight, cast_shiftRight, ← Int.natCast_ediv, ← Int.natCast_emod,
    ← Int.natCast_add, ← Int.natCast_add, Int.toNat_natCast, Int.toNat_natCast]

theorem over_core (hr : fr ≤ lr) (hc : fc ≤ lc) :
    Rect.Over ⟨fr, lr, fc, lc⟩ l r c ↔ Within fr lr fc lc l r c := by
  have hrows := Nat.div_le_div_right (c := 2 ^ l) hr
  have hcols := Nat.div_le_div_right (c := 2 ^ l) hc
  simp only [Rect.Over, List.mem_map, List.mem_range, count_core hr hc, cell_core hc, Prod.mk.injEq, Within]
  constructor
  · rintro ⟨i, hi, rfl, rfl⟩
    have hrow : i / (lc / 2 ^ l - fc / 2 ^ l + 1) < lr / 2 ^ l - fr / 2 ^ l + 1 :=
      Nat.div_lt_of_lt_mul (by rwa [Nat.mul_comm])
    have hcol := Nat.mod_lt i (show 0 < lc / 2 ^ l - fc / 2 ^ l + 1 by omega)
    generalize i / (lc / 2 ^ l - fc / 2 ^ l + 1) = a at hrow
    generalize i % (lc / 2 ^ l - fc / 2 ^ l + 1) = b at hcol
    omega
  · rintro ⟨hr', hc'⟩
    have hsmall : c - fc / 2 ^ l < lc / 2 ^ l - fc / 2 ^ l + 1 := by omega
    refine ⟨(r - fr / 2 ^ l) * (lc / 2 ^ l - fc / 2 ^ l + 1) + (c - fc / 2 ^ l), ?_, ?_, ?_⟩
    · calc (r - fr / 2 ^ l) * (lc / 2 ^ l - fc / 2 ^ l + 1) + (c - fc / 2 ^ l)
          < (r - fr / 2 ^ l + 1) * (lc / 2 ^ l - fc / 2 ^ l + 1) := by rw [Nat.add_mul, Nat.one_mul]; omega
        _ ≤ (lr / 2 ^ l - fr / 2 ^ l + 1) * (lc / 2 ^ l - fc / 2 ^ l + 1) := Nat.mul_le_mul_right _ (by omega)
    · rw [Nat.mul_comm, Nat.mul_add_div (by omega), Nat.div_eq_of_lt hsmall]
      omega
    · rw [Nat.mul_comm, Nat.mul_add_mod, Nat.mod_eq_of_lt hsmall]
      omega

/-- No cell is counted twice. -/
theorem cell_inj (hc : fc ≤ lc) {i j : Nat}
    (h : Rect.cell ⟨fr, lr, fc, lc⟩ l i = Rect.cell ⟨fr, lr, fc, lc⟩ l j) : i = j := by
  rw [cell_core hc, cell_core hc, Prod.mk.injEq] at h
  rw [← Nat.div_add_mod i (lc / 2 ^ l - fc / 2 ^ l + 1), ← Nat.div_add_mod j (lc / 2 ^ l - fc / 2 ^ l + 1),
    show i / (lc / 2 ^ l - fc / 2 ^ l + 1) = j / (lc / 2 ^ l - fc / 2 ^ l + 1) by omega]
  omega

theorem not_over_empty : ¬Rect.Over Rect.empty l r c := by
  have hminus : (-1 : Int) >>> l = -1 := by
    rw [Int.shiftRight_eq_div_pow]
    exact Int.ediv_eq_neg_one_of_neg_of_le (by decide) (by have := Nat.one_le_two_pow (n := l); omega)
  have hzero : (0 : Int) >>> l = 0 := by simp
  have hcount : Rect.empty.count l = 0 := by
    simp only [Rect.count, Rect.columns, Rect.empty, hminus, hzero]
    rfl
  rw [Rect.Over, hcount]
  exact List.not_mem_nil

/-- A cell over a rectangle lies in its level, and the four under it in theirs. -/
theorem Rect.Placed.bounds (hq : Rect.Placed h w q) (hh : 2 ≤ h) (hh' : h ≤ 2 ^ 31) (hw : 2 ≤ w) (hw' : w ≤ 2 ^ 31)
    (hover : q.Over (l + 1) r c) : (2 * r + 1 < side (nextPow2 h) l ∧ 2 * c + 1 < side (nextPow2 w) l) ∧
      r < side (nextPow2 h) (l + 1) ∧ c < side (nextPow2 w) (l + 1) := by
  cases hq with
  | empty => exact absurd hover not_over_empty
  | core hr hlr hc hlc =>
    obtain ⟨⟨-, hr'⟩, -, hc'⟩ := (over_core hr hc).mp hover
    have hrow := Da3d.square_lt_side hh hh' hlr l
    have hcol := Da3d.square_lt_side hw hw' hlc l
    have hrow' := Da3d.div_lt_side hh hh' hlr (l + 1)
    have hcol' := Da3d.div_lt_side hw hw' hlc (l + 1)
    omega

theorem rectOf_core {W : Type} {p : Patch W} (hrow : p.row < h) (hcol : p.col < w) :
    rectOf h w p = ⟨(p.row - 31 : Nat), (min h (p.row + 33) - 1 : Nat), (p.col - 31 : Nat),
      (min w (p.col + 33) - 1 : Nat)⟩ := by
  rw [rectOf, Rect.mk.injEq]
  omega

theorem rectOf_placed {W : Type} {p : Patch W} (hrow : p.row < h) (hcol : p.col < w) :
    Rect.Placed h w (rectOf h w p) := by
  rw [rectOf_core hrow hcol]
  exact .core (by omega) (by omega) (by omega) (by omega)

end Rectangles

/-! ## Refreshing levels -/

section Refresh

open NssFactory.Da3d (Of Holds Risen Tree)
open MinTree (least)

variable {h w l k : Nat} {q : Rect} {m m' : WeightMap W} {leaf leaf' : Nat → Nat → W} {S : CellSet}
  {v : Nat → Nat → Nat → W}

/-- What a level holds after some writes. -/
theorem Written.holds (hm : Written m m' S v)
    (hin : ∀ r c, S k r c → v k r c = least leaf k r c)
    (hout : ∀ r < m.rows k, ∀ c < m.cols k, ¬S k r c → m.entry k r c = some (least leaf k r c)) :
    Holds leaf m' k := by
  intro r hr c hc
  rw [hm.shape.rows] at hr
  rw [hm.shape.cols] at hc
  by_cases hS : S k r c
  · rw [hm.fresh k r c hr hc hS, hin r c hS]
  · rw [hm.stale k r c hr hc hS, hout r hr c hc hS]

/-- A level over a rectangle, from a level below that holds the minima. -/
theorem refreshLevel_written (hq : q.Placed h w) (hh : 2 ≤ h) (hh' : h ≤ 2 ^ 31) (hw : 2 ≤ w) (hw' : w ≤ 2 ^ 31)
    (ho : Of h w m) (hbelow : Holds leaf m l) :
    ∃ m', refreshLevel q m (l + 1) = some m' ∧
      Written m m' (fun k r c => k = l + 1 ∧ q.Over (l + 1) r c) (least leaf) := by
  have hfold : ∃ m', refreshLevel q m (l + 1) = some m' ∧ Written m m'
      (fun k r c => ∃ x ∈ (List.range (q.count (l + 1))).map (q.cell (l + 1)), k = l + 1 ∧ r = x.1 ∧ c = x.2)
      (least leaf) := by
    refine written_foldlM fun done x rest hitems s hs => ?_
    have hover : q.Over (l + 1) x.1 x.2 := by simp [Rect.Over, hitems]
    obtain ⟨hbelow', habove⟩ := hq.bounds hh hh' hw hw' hover
    rw [← ho.rows, ← ho.cols] at hbelow' habove
    have hcell : ∀ a ≤ 1, ∀ b ≤ 1,
        s.entry l (2 * x.1 + a) (2 * x.2 + b) = some (least leaf l (2 * x.1 + a) (2 * x.2 + b)) := by
      intro a ha b hb
      rw [hs.stale l _ _ (by omega) (by omega) (by rintro ⟨y, -, hl, -⟩; omega)]
      exact hbelow _ (by omega) _ (by omega)
    have hvalue : min (min (least leaf l (2 * x.1) (2 * x.2)) (least leaf l (2 * x.1) (2 * x.2 + 1)))
        (min (least leaf l (2 * x.1 + 1) (2 * x.2)) (least leaf l (2 * x.1 + 1) (2 * x.2 + 1))) =
          least leaf (l + 1) x.1 x.2 := (MinTree.square_eq _ _ _).symm
    obtain ⟨s', hput, hs'⟩ := written_put (m := s) (l := l + 1) (r := x.1) (c := x.2)
      (by rw [hs.shape.rows]; exact habove.1) (by rw [hs.shape.cols]; exact habove.2) hvalue
    refine ⟨s', ?_, hs'⟩
    have h₀₀ := hcell 0 (by decide) 0 (by decide)
    have h₀₁ := hcell 0 (by decide) 1 (by decide)
    have h₁₀ := hcell 1 (by decide) 0 (by decide)
    have h₁₁ := hcell 1 (by decide) 1 (by decide)
    simp only [Nat.add_zero] at h₀₀ h₀₁ h₁₀
    simp only [minOfSquare, Nat.add_sub_cancel, h₀₀, h₀₁, h₁₀, h₁₁, Option.bind_eq_bind, Option.bind_some]
    exact hput
  obtain ⟨m', hloop, hm'⟩ := hfold
  refine ⟨m', hloop, hm'.congr fun k r c => ?_⟩
  constructor
  · rintro ⟨x, hx, rfl, rfl, rfl⟩
    exact ⟨rfl, hx⟩
  · rintro ⟨rfl, hover⟩
    exact ⟨(r, c), hover, rfl, rfl, rfl⟩

/-- A cell that is not over the rectangle has kept its minimum. -/
theorem least_of_not_over (hq : q.Placed h w) (hsame : ∀ i j, ¬q.Over 0 i j → leaf i j = leaf' i j) {r c : Nat}
    (hout : ¬q.Over l r c) : least leaf l r c = least leaf' l r c := by
  cases hq with
  | empty => exact MinTree.least_congr fun i j _ => hsame i j not_over_empty
  | core hr _ hc _ =>
    simp only [over_core hr hc] at hsame hout
    exact Da3d.least_of_not_within hsame hout

section Levels

variable (hq : q.Placed h w) (hh : 2 ≤ h) (hh' : h ≤ 2 ^ 31) (hw : 2 ≤ w) (hw' : w ≤ 2 ^ 31)

include hq hh hh' hw hw'

/-- All levels above level `0`. -/
theorem refresh_tree (hsame : ∀ i j, ¬q.Over 0 i j → leaf i j = leaf' i j) (hm : Risen h w leaf leaf' 1 m)
    (hlevels : 1 ≤ m.levels) : ∃ m', refresh 1 q m = some m' ∧ Tree h w leaf' m' := by
  have hround : ∀ s l, 1 ≤ l → l ≤ m.levels - 1 → Risen h w leaf leaf' l s →
      ∃ s', refreshLevel q s l = some s' ∧ Risen h w leaf leaf' (l + 1) s' := by
    intro s l hl hl' hs
    have hs_levels : s.levels = m.levels := hs.of.levels.trans hm.of.levels.symm
    obtain ⟨l, rfl⟩ := Nat.exists_eq_add_of_le' hl
    obtain ⟨s', hlevel, hs'⟩ := refreshLevel_written hq hh hh' hw hw' hs.of (hs.below l (by omega))
    refine ⟨s', hlevel, hs.of.shape hs'.shape, fun k hk => hs'.holds ?_ ?_, fun k hk hk' => hs'.holds ?_ ?_⟩
    · rintro r c ⟨rfl, -⟩
      rfl
    · intro r hr c hc hout
      by_cases hkl : k = l + 1
      · subst hkl
        rw [hs.above (l + 1) (by omega) (by omega) r hr c hc,
          least_of_not_over hq hsame fun hover => hout ⟨rfl, hover⟩]
      · exact hs.below k (by omega) r hr c hc
    · rintro r c ⟨rfl, -⟩
      omega
    · intro r hr c hc _
      exact hs.above k (by omega) (by rw [hs'.shape.levels] at hk'; omega) r hr c hc
  obtain ⟨m', hloop, hm'⟩ := between_induct _ hm hround
  refine ⟨m', hloop, hm'.of, fun l hl => hm'.below l ?_⟩
  have := hm'.of.levels.trans hm.of.levels.symm
  omega

end Levels

/-! ### Levels that wait

On the fast path levels `0`, `3` and `4` hold the minima all the time; a level above them does
where the last patch has not been, and from `l` on it may have to wait. -/

structure Waiting (h w : Nat) (leaf : Nat → Nat → W) (q : Rect) (l : Nat) (m : WeightMap W) : Prop where
  of : Of h w m
  current : ∀ k < l, k = 0 ∨ kSharedLevel ≤ k → k < m.levels → Holds leaf m k
  rest : ∀ k, l ≤ k → k < m.levels → ∀ r < m.rows k, ∀ c < m.cols k, ¬q.Over k r c →
    m.entry k r c = some (least leaf k r c)

/-- The refresh before a selection. -/
theorem refresh_waiting (hq : q.Placed h w) (hh : 2 ≤ h) (hh' : h ≤ 2 ^ 31) (hw : 2 ≤ w) (hw' : w ≤ 2 ^ 31)
    (hm : Waiting h w leaf q (kSharedLevel + 2) m) (hlevels : kSharedLevel + 2 ≤ m.levels) :
    ∃ m', refresh (kSharedLevel + 2) q m = some m' ∧ Of h w m' ∧
      ∀ k < m'.levels, k = 0 ∨ kSharedLevel ≤ k → Holds leaf m' k := by
  have hround : ∀ s l, kSharedLevel + 2 ≤ l → l ≤ m.levels - 1 → Waiting h w leaf q l s →
      ∃ s', refreshLevel q s l = some s' ∧ Waiting h w leaf q (l + 1) s' := by
    intro s l hl hl' hs
    have hs_levels : s.levels = m.levels := hs.of.levels.trans hm.of.levels.symm
    have hshared : kSharedLevel = 3 := rfl
    obtain ⟨l, rfl⟩ := Nat.exists_eq_add_of_le' (show 1 ≤ l by omega)
    obtain ⟨s', hlevel, hs'⟩ := refreshLevel_written hq hh hh' hw hw' hs.of
      (hs.current l (by omega) (by omega) (by omega))
    have hs'_levels : s'.levels = s.levels := hs'.shape.levels
    refine ⟨s', hlevel, hs.of.shape hs'.shape, fun k hk hkept hk' => hs'.holds ?_ ?_, fun k hk hk' r hr c hc hout => ?_⟩
    · rintro r c ⟨rfl, -⟩
      rfl
    · intro r hr c hc hout
      by_cases hkl : k = l + 1
      · subst hkl
        exact hs.rest (l + 1) (Nat.le_refl _) (by omega) r hr c hc fun hover => hout ⟨rfl, hover⟩
      · exact hs.current k (by omega) hkept (by omega) r hr c hc
    · rw [hs'.shape.rows] at hr
      rw [hs'.shape.cols] at hc
      rw [hs'.stale k r c hr hc (by rintro ⟨rfl, -⟩; omega)]
      exact hs.rest k (by omega) (by omega) r hr c hc hout
  obtain ⟨m', hloop, hm'⟩ := between_induct _ hm hround
  refine ⟨m', hloop, hm'.of, fun k hk hkept => hm'.current k ?_ hkept hk⟩
  have := hm'.of.levels.trans hm.of.levels.symm
  omega

end Refresh

end NssFactory.Cuda.Da3d
