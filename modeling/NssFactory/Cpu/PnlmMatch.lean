import Mathlib.Data.List.DropRight
import NssFactory.Cpu.Match
import NssFactory.Cpu.Pnlm
import NssFactory.Lib.Arrays
import NssFactory.Lib.Keyed
import NssFactory.Lib.LeastK

/-!
# The search of PNLM

`Plane::match_row` of `cpu/pnlm/pnlm.cpp`: for each displacement the column sums of a grid row, their quarter
sums and the patch totals are formed for the whole width, a vector at a time, and each reference that has a
candidate there takes its key in. An access outside a plane row or a scratch row has no result. The
arithmetic of the distances is a parameter.
-/

namespace NssFactory.Cpu.Pnlm

open Arrays Loops

/-- Floats after a buffer, for whole vectors. -/
def kPad : Int := 32

/-- Bits of an infinite distance. -/
def infBits : Nat := 0x7f800000

/-- A target's vectors and its operations on floats. -/
structure Vectors where
  lanes : Int
  lanes_pos : 0 < lanes
  lanes_le : lanes ≤ 16
  sub : F32 → F32 → F32
  add : F32 → F32 → F32
  mulAdd : F32 → F32 → F32 → F32

/-- `PnlmImage`, as `pnlm_denoise` admits it. -/
structure Image extends Plane where
  frames : Int
  center : Int
  a : Int
  group : Int
  value : (t y x : Int) → F32
  width_max : width ≤ 8192
  height_max : height ≤ 8192
  frames_pos : 1 ≤ frames
  frames_max : frames ≤ 63
  center_nonneg : 0 ≤ center
  center_lt : center < frames
  a_pos : 1 ≤ a
  group_min : 2 ≤ group
  group_max : group ≤ 32

/-- `static_cast<std::uint32_t>` -/
def word (v : Int) : Nat := (v % 2 ^ 32).toNat

/-- `pnlm_pos` -/
def pnlmPos (t y x : Int) : Nat := (word t <<< 26) % 2 ^ 32 ||| (word y <<< 13) % 2 ^ 32 ||| word x

def pnlmPosT (pos : Nat) : Nat := pos >>> 26

def pnlmPosY (pos : Nat) : Nat := pos >>> 13 &&& 8191

def pnlmPosX (pos : Nat) : Nat := pos &&& 8191

/-- The key of a candidate from the bits of its distance. -/
def packKey (bits pos : Nat) : Nat := min bits infBits <<< 32 ||| pos

/-- `pnlm_columns` -/
def pnlmColumns (v : Vectors) (q : Int) (c : Int → F32) : F32 :=
  if q = 4 then v.add (v.add (c 0) (c 1)) (v.add (c 2) (c 3))
  else if q = 3 then v.add (v.add (c 0) (c 1)) (c 2)
  else v.add (c 0) (c 1)

/-- The scratch rows, and the keys kept for each reference of the grid row. -/
structure Work where
  top : Arr F32
  bottom : Arr F32
  quarterTop : Arr F32
  quarterBottom : Arr F32
  total : Arr F32
  best : Int → List Nat

namespace Image

variable (v : Vectors) (img : Image)

/-- `n` pixels of a row, zeros behind them. -/
def load (t y x n : Int) : Option (Int → F32) :=
  if 0 ≤ t ∧ t < img.frames ∧ 0 ≤ y ∧ y < img.height ∧ 0 ≤ x ∧ x + n ≤ img.width then
    some fun i => if i < n then img.value t y (x + i) else F32.zero
  else none

/-- A row of a quarter in the loop of the column sums. -/
def columnRow (y0 yc t dx qy x n : Int) (sum : Int → F32) (r : Int) : Option (Int → F32) := do
  let rv ← img.load img.center (y0 + qy * img.q + r) x n
  let cv ← img.load t (yc + qy * img.q + r) (x + dx) n
  some fun i =>
    let d := v.sub (rv i) (cv i)
    v.mulAdd d d (sum i)

/-- The column sums of a vector. -/
def columnVector (y0 yc t dx qy xHi : Int) (col : Arr F32) (x : Int) : Option (Arr F32) := do
  let n := min v.lanes (xHi - x)
  let sum ← loop 0 img.q (fun _ => F32.zero) (img.columnRow v y0 yc t dx qy x n)
  col.store x v.lanes sum

/-- The quarter sums of a vector. -/
def quarterVector (c : Arr F32) (quarter : Arr F32) (x : Int) : Option (Arr F32) := do
  let c0 ← c.load x v.lanes
  let c1 ← c.load (x + 1) v.lanes
  if img.q = 4 then
    let c2 ← c.load (x + 2) v.lanes
    let c3 ← c.load (x + 3) v.lanes
    quarter.store x v.lanes fun i => v.add (v.add (c0 i) (c1 i)) (v.add (c2 i) (c3 i))
  else if img.q = 3 then
    let c2 ← c.load (x + 2) v.lanes
    quarter.store x v.lanes fun i => v.add (v.add (c0 i) (c1 i)) (c2 i)
  else quarter.store x v.lanes fun i => v.add (c0 i) (c1 i)

/-- The patch totals of a vector. -/
def totalVector (qt qb : Arr F32) (total : Arr F32) (x : Int) : Option (Arr F32) := do
  let t0 ← qt.load x v.lanes
  let t1 ← qt.load (x + img.q) v.lanes
  let b0 ← qb.load x v.lanes
  let b1 ← qb.load (x + img.q) v.lanes
  total.store x v.lanes fun i => v.add (v.add (t0 i) (t1 i)) (v.add (b0 i) (b1 i))

/-- `xs[ix]` -/
def xs (ix : Int) : Int := pnlmGridPos ix img.width img.P

/-- The references whose candidate is inside the plane: from both ends those are left out whose candidate is not. -/
def inside (dx : Int) : List Int :=
  ((Int.range 0 img.nx).dropWhile fun ix => img.xs ix + dx < 0).rdropWhile fun ix => img.xs ix + dx > img.width - img.P

/-- The insertion of a key into at most `K`. -/
def insertKey (K : Nat) (kept : List Nat) (key : Nat) : List Nat :=
  if kept.length < K then shiftDown (fun a b => decide (a < b)) key kept.length (kept ++ [key])
  else
    match kept[K - 1]? with
    | some last => if key < last then shiftDown (fun a b => decide (a < b)) key (K - 1) kept else kept
    | none => kept

/-- What a reference makes of its candidate. -/
def offer (t yc dx : Int) (total : Arr F32) (best : Int → List Nat) (ix : Int) : Option (Int → List Nat) := do
  let x0 := img.xs ix
  let bits ← total.get x0
  let key := packKey bits.toNat (pnlmPos t yc (x0 + dx))
  some (Function.update best ix (insertKey (img.group - 1).toNat (best ix) key))

/-- A displacement. -/
def displacement (y0 t dy : Int) (w : Work) (dx : Int) : Option Work := do
  let yc := y0 + dy
  let xLo := max 0 (-dx)
  let xHi := min img.width (img.width - dx)
  let top ← strided xLo xHi v.lanes w.top (img.columnVector v y0 yc t dx 0 xHi)
  let bottom ← strided xLo xHi v.lanes w.bottom (img.columnVector v y0 yc t dx 1 xHi)
  let w := { w with top, bottom }
  if t = img.center ∧ dx = 0 ∧ dy = 0 then some w
  else
    let tHi := xHi - img.P + 1
    let quarterTop ← strided xLo (tHi + img.q) v.lanes w.quarterTop (img.quarterVector v w.top)
    let quarterBottom ← strided xLo (tHi + img.q) v.lanes w.quarterBottom (img.quarterVector v w.bottom)
    let total ← strided xLo tHi v.lanes w.total (img.totalVector v quarterTop quarterBottom)
    let best ← (img.inside dx).foldlM (img.offer t yc dx total) w.best
    some { w with quarterTop, quarterBottom, total, best }

/-- The displacements of a row. -/
def rowOf (y0 t : Int) (w : Work) (dy : Int) : Option Work :=
  let yc := y0 + dy
  if yc < 0 ∨ yc > img.height - img.P then some w
  else loop (-img.a) (img.a + 1) w (img.displacement v y0 t dy)

def frameOf (y0 : Int) (w : Work) (t : Int) : Option Work := loop (-img.a) (img.a + 1) w (img.rowOf v y0 t)

/-- `match_row` -/
def matchRow (y0 : Int) (w : Work) : Option Work :=
  loop 0 img.frames { w with best := fun _ => [] } (img.frameOf v y0)

/-! ## The passes -/

section Passes

variable {v : Vectors} {img : Image} {y0 yc t dx qy x xLo xHi : Int}

/-- The sum over the first `r` rows of column `x` of a quarter row. -/
def columnTo (v : Vectors) (img : Image) (y0 yc t dx qy x r : Int) : F32 :=
  (Int.range 0 r).foldl (fun sum r =>
    let d := v.sub (img.value img.center (y0 + qy * img.q + r) x) (img.value t (yc + qy * img.q + r) (x + dx))
    v.mulAdd d d sum) F32.zero

/-- The column sum at `x`. -/
def columnSum (v : Vectors) (img : Image) (y0 yc t dx qy x : Int) : F32 := img.columnTo v y0 yc t dx qy x img.q

/-- The quarter sum at `x`. -/
def quarterSum (v : Vectors) (img : Image) (y0 yc t dx qy x : Int) : F32 :=
  pnlmColumns v img.q fun i => img.columnSum v y0 yc t dx qy (x + i)

/-- The patch total at `x`. -/
def patchTotal (v : Vectors) (img : Image) (y0 yc t dx x : Int) : F32 :=
  v.add (v.add (img.quarterSum v y0 yc t dx 0 x) (img.quarterSum v y0 yc t dx 0 (x + img.q)))
    (v.add (img.quarterSum v y0 yc t dx 1 x) (img.quarterSum v y0 yc t dx 1 (x + img.q)))

/-- Patches of frame `t` from row `yc` on are compared with those from row `y0` on. -/
structure Rows (img : Image) (y0 yc t : Int) : Prop where
  y0_nonneg : 0 ≤ y0
  y0_le : y0 ≤ img.height - img.P
  yc_nonneg : 0 ≤ yc
  yc_le : yc ≤ img.height - img.P
  t_nonneg : 0 ≤ t
  t_lt : t < img.frames

/-- The columns where both planes have pixels. -/
structure Columns (img : Image) (dx xLo xHi : Int) : Prop where
  lo : xLo = max 0 (-dx)
  hi : xHi = min img.width (img.width - dx)

theorem load_eq {y n : Int} (ht : 0 ≤ t) (ht' : t < img.frames) (hy : 0 ≤ y) (hy' : y < img.height) (hx : 0 ≤ x)
    (hx' : x + n ≤ img.width) : img.load t y x n = some fun i => if i < n then img.value t y (x + i) else F32.zero :=
  if_pos ⟨ht, ht', hy, hy', hx, hx'⟩

theorem columnVector_eq (h : Rows img y0 yc t) (hc : Columns img dx xLo xHi) (hqy : qy = 0 ∨ qy = 1) (hx : xLo ≤ x)
    (col : Arr F32) : ∃ sum, img.columnVector v y0 yc t dx qy xHi col x = col.store x v.lanes sum ∧
      ∀ i, 0 ≤ i → i < v.lanes → x + i < xHi → sum i = img.columnSum v y0 yc t dx qy (x + i) := by
  obtain ⟨hy0, hy0', hyc, hyc', ht, ht'⟩ := h
  obtain ⟨hlo, hhi⟩ := hc
  have hP : img.P = 2 * img.q := rfl
  have hq := img.q_cases
  have hcenter := img.center_nonneg
  have hcenter' := img.center_lt
  have hrow : ∀ y, 0 ≤ y → y ≤ img.height - img.P → ∀ r, 0 ≤ r → r < img.q →
      0 ≤ y + qy * img.q + r ∧ y + qy * img.q + r < img.height := by
    intro y hy hy' r hr hr'
    rcases hqy with rfl | rfl <;> omega
  have hloop : ∃ sum, loop 0 img.q (fun _ => F32.zero) (img.columnRow v y0 yc t dx qy x (min v.lanes (xHi - x))) = some sum ∧
      ∀ i, 0 ≤ i → i < v.lanes → x + i < xHi → sum i = img.columnTo v y0 yc t dx qy (x + i) img.q := by
    refine loop_stages (fun r (sum : Int → F32) => ∀ i, 0 ≤ i → i < v.lanes → x + i < xHi →
      sum i = img.columnTo v y0 yc t dx qy (x + i) r) (by omega) (fun i _ _ _ => ?_) ?_
    · rw [columnTo, range_empty (by omega)]
      rfl
    · intro sum r hr hr' hsum
      have hy := hrow y0 hy0 hy0' r hr hr'
      have hyc := hrow yc hyc hyc' r hr hr'
      have hrv := @load_eq img img.center x (y0 + qy * img.q + r) (min v.lanes (xHi - x)) hcenter hcenter' hy.1 hy.2
        (by omega) (by omega)
      have hcv := @load_eq img t (x + dx) (yc + qy * img.q + r) (min v.lanes (xHi - x)) ht ht' hyc.1 hyc.2
        (by omega) (by omega)
      have hrow : ∃ sum', img.columnRow v y0 yc t dx qy x (min v.lanes (xHi - x)) sum r = some sum' ∧
          ∀ i, i < min v.lanes (xHi - x) → sum' i =
            let d := v.sub (img.value img.center (y0 + qy * img.q + r) (x + i)) (img.value t (yc + qy * img.q + r) (x + dx + i))
            v.mulAdd d d (sum i) := by
        unfold columnRow
        rw [hrv, hcv]
        exact ⟨_, rfl, fun i hi => by simp only [if_pos hi]⟩
      obtain ⟨sum', hrun, hval⟩ := hrow
      refine ⟨sum', hrun, fun i hi hil hix => ?_⟩
      rw [hval i (by omega), hsum i hi hil hix, columnTo, columnTo, range_snoc hr, List.foldl_append, List.foldl_cons,
        List.foldl_nil, show x + dx + i = x + i + dx by omega]
  obtain ⟨sum, hsum, hval⟩ := hloop
  refine ⟨sum, ?_, hval⟩
  unfold columnVector
  dsimp only
  rw [hsum]
  rfl

/-- The column sums of a grid row. -/
theorem columns_pass (h : Rows img y0 yc t) (hc : Columns img dx xLo xHi) (hqy : qy = 0 ∨ qy = 1) (col : Arr F32)
    (hsize : col.size = img.width + kPad) :
    ∃ col', strided xLo xHi v.lanes col (img.columnVector v y0 yc t dx qy xHi) = some col' ∧ col'.size = img.width + kPad ∧
      ∀ i, xLo ≤ i → i < xHi → col'.elem i = img.columnSum v y0 yc t dx qy i := by
  have hlanes := v.lanes_le
  have hpad : kPad = 32 := rfl
  obtain ⟨hlo, hhi⟩ := hc
  obtain ⟨col', hrun, hsize', helem⟩ := strided_store (a := col) (b := img.columnVector v y0 yc t dx qy xHi)
    (img.columnSum v y0 yc t dx qy) v.lanes_pos (show 0 ≤ xLo by omega) (by omega)
    fun col x _ hx _ => columnVector_eq h ⟨hlo, hhi⟩ hqy hx col
  exact ⟨col', hrun, hsize'.trans hsize, helem⟩

/-- The quarter sums where the patches of a quarter row have all columns. -/
theorem quarters_pass (hc : Columns img dx xLo xHi) {c quarter : Arr F32} (hcsize : c.size = img.width + kPad)
    (hsize : quarter.size = img.width + kPad) (helem : ∀ i, xLo ≤ i → i < xHi → c.elem i = img.columnSum v y0 yc t dx qy i) :
    ∃ quarter', strided xLo (xHi - img.P + 1 + img.q) v.lanes quarter (img.quarterVector v c) = some quarter' ∧
      quarter'.size = img.width + kPad ∧
      ∀ i, xLo ≤ i → i < xHi - img.P + 1 + img.q → quarter'.elem i = img.quarterSum v y0 yc t dx qy i := by
  have hlanes := v.lanes_le
  have hpad : kPad = 32 := rfl
  have hP : img.P = 2 * img.q := rfl
  have hq := img.q_cases
  obtain ⟨hlo, hhi⟩ := hc
  have hround : ∀ (quarter : Arr F32) (x : Int), xLo ≤ x → x < xHi - img.P + 1 + img.q → ∃ w,
      img.quarterVector v c quarter x = quarter.store x v.lanes w ∧
      ∀ i, 0 ≤ i → i < v.lanes → x + i < xHi - img.P + 1 + img.q → w i = img.quarterSum v y0 yc t dx qy (x + i) := by
    intro quarter x hx hx'
    have hload : ∀ j, 0 ≤ j → j < img.q → c.load (x + j) v.lanes = some fun i => c.elem (x + j + i) :=
      fun j hj hj' => Arr.load_eq _ (by omega) (by omega)
    have hcolumn : ∀ i, 0 ≤ i → x + i < xHi - img.P + 1 + img.q → ∀ j, 0 ≤ j → j < img.q →
        c.elem (x + j + i) = img.columnSum v y0 yc t dx qy (x + i + j) := by
      intro i hi hix j hj hj'
      rw [show x + j + i = x + i + j by omega]
      exact helem _ (by omega) (by omega)
    have h0 := hload 0 (by omega) (by omega)
    rw [Int.add_zero] at h0
    unfold quarterVector quarterSum pnlmColumns
    rw [h0, hload 1 (by omega) (by omega)]
    rcases hq with hq | hq | hq <;> rw [hq] at hload hcolumn ⊢
    · refine ⟨_, rfl, fun i hi hil hix => ?_⟩
      have h0 := hcolumn i hi hix 0 (by omega) (by omega)
      rw [Int.add_zero] at h0
      simp only [h0, hcolumn i hi hix 1 (by omega) (by omega)]
      rfl
    · rw [hload 2 (by omega) (by omega)]
      refine ⟨_, rfl, fun i hi hil hix => ?_⟩
      have h0 := hcolumn i hi hix 0 (by omega) (by omega)
      rw [Int.add_zero] at h0
      simp only [h0, hcolumn i hi hix 1 (by omega) (by omega), hcolumn i hi hix 2 (by omega) (by omega)]
      rfl
    · rw [hload 2 (by omega) (by omega), hload 3 (by omega) (by omega)]
      refine ⟨_, rfl, fun i hi hil hix => ?_⟩
      have h0 := hcolumn i hi hix 0 (by omega) (by omega)
      rw [Int.add_zero] at h0
      simp only [h0, hcolumn i hi hix 1 (by omega) (by omega), hcolumn i hi hix 2 (by omega) (by omega),
        hcolumn i hi hix 3 (by omega) (by omega)]
      rfl
  obtain ⟨quarter', hrun, hsize', helem'⟩ := strided_store (a := quarter) (b := img.quarterVector v c)
    (img.quarterSum v y0 yc t dx qy) v.lanes_pos (show 0 ≤ xLo by omega) (by omega) fun quarter x _ hx hx' => hround quarter x hx hx'
  exact ⟨quarter', hrun, hsize'.trans hsize, helem'⟩

/-- The totals of the patches that are inside both planes. -/
theorem totals_pass (hc : Columns img dx xLo xHi) {qt qb total : Arr F32} (htsize : qt.size = img.width + kPad)
    (hbsize : qb.size = img.width + kPad) (hsize : total.size = img.width + kPad)
    (ht : ∀ i, xLo ≤ i → i < xHi - img.P + 1 + img.q → qt.elem i = img.quarterSum v y0 yc t dx 0 i)
    (hb : ∀ i, xLo ≤ i → i < xHi - img.P + 1 + img.q → qb.elem i = img.quarterSum v y0 yc t dx 1 i) :
    ∃ total', strided xLo (xHi - img.P + 1) v.lanes total (img.totalVector v qt qb) = some total' ∧
      total'.size = img.width + kPad ∧
      ∀ i, xLo ≤ i → i < xHi - img.P + 1 → total'.elem i = img.patchTotal v y0 yc t dx i := by
  have hlanes := v.lanes_le
  have hpad : kPad = 32 := rfl
  have hP : img.P = 2 * img.q := rfl
  have hq := img.q_cases
  obtain ⟨hlo, hhi⟩ := hc
  have hround : ∀ (total : Arr F32) (x : Int), xLo ≤ x → x < xHi - img.P + 1 → ∃ w,
      img.totalVector v qt qb total x = total.store x v.lanes w ∧
      ∀ i, 0 ≤ i → i < v.lanes → x + i < xHi - img.P + 1 → w i = img.patchTotal v y0 yc t dx (x + i) := by
    intro total x hx hx'
    have hload : ∀ row : Arr F32, row.size = img.width + kPad → row.load x v.lanes = some (fun i => row.elem (x + i)) ∧
        row.load (x + img.q) v.lanes = some fun i => row.elem (x + img.q + i) :=
      fun row hrow => ⟨row.load_eq (by omega) (by omega), row.load_eq (by omega) (by omega)⟩
    unfold totalVector
    rw [(hload qt htsize).1, (hload qt htsize).2, (hload qb hbsize).1, (hload qb hbsize).2]
    refine ⟨_, rfl, fun i hi hil hix => ?_⟩
    unfold patchTotal
    dsimp only
    rw [ht _ (by omega) (by omega), ht _ (by omega) (by omega), hb _ (by omega) (by omega), hb _ (by omega) (by omega),
      show x + img.q + i = x + i + img.q by omega]
  obtain ⟨total', hrun, hsize', helem⟩ := strided_store (a := total) (b := img.totalVector v qt qb)
    (img.patchTotal v y0 yc t dx) v.lanes_pos (show 0 ≤ xLo by omega) (by omega) fun total x _ hx hx' => hround total x hx hx'
  exact ⟨total', hrun, hsize'.trans hsize, helem⟩

end Passes

/-! ## The references of a displacement -/

section Inside

variable {img : Image} {dx ix jx : Int}

theorem xs_mono (h : ix ≤ jx) : img.xs ix ≤ img.xs jx := by
  have hq := img.q_cases
  have hhalf : img.P / 2 = img.q := by
    have hP : img.P = 2 * img.q := rfl
    omega
  have hmul : ix * img.q ≤ jx * img.q := Int.mul_le_mul_of_nonneg_right h (by omega)
  unfold xs pnlmGridPos
  rw [hhalf]
  dsimp only
  split <;> split <;> omega

theorem gridPos_bounds {n : Int} (hn : img.P ≤ n) (h : 0 ≤ ix) : 0 ≤ pnlmGridPos ix n img.P ∧ pnlmGridPos ix n img.P ≤ n - img.P := by
  have hq := img.q_cases
  have hP : img.P = 2 * img.q := rfl
  have hhalf : img.P / 2 = img.q := by omega
  have hmul : 0 ≤ ix * img.q := Int.mul_nonneg h (by omega)
  unfold pnlmGridPos
  rw [hhalf]
  dsimp only
  split <;> omega

theorem xs_bounds (h : 0 ≤ ix) : 0 ≤ img.xs ix ∧ img.xs ix ≤ img.width - img.P := gridPos_bounds img.width_le h

/-- The run of the grid is that of the references whose candidate is inside the plane. -/
theorem inside_eq : img.inside dx = (Int.range 0 img.nx).filter fun ix =>
    0 ≤ img.xs ix + dx ∧ img.xs ix + dx ≤ img.width - img.P := by
  have hfront : (Int.range 0 img.nx).dropWhile (fun ix => decide (img.xs ix + dx < 0)) =
      (Int.range 0 img.nx).filter fun ix => !decide (img.xs ix + dx < 0) := by
    refine dropWhile_eq_filter ((range_pairwise 0 img.nx).imp fun {a b} hab => ?_)
    have := img.xs_mono hab.le
    rw [decide_eq_true_eq, decide_eq_true_eq]
    omega
  have hback : ∀ l : List Int, l.Pairwise (· < ·) →
      l.rdropWhile (fun ix => decide (img.xs ix + dx > img.width - img.P)) =
      l.filter fun ix => !decide (img.xs ix + dx > img.width - img.P) := by
    intro l hl
    rw [List.rdropWhile, dropWhile_eq_filter, List.filter_reverse, List.reverse_reverse]
    rw [List.pairwise_reverse]
    refine hl.imp fun {a b} hab => ?_
    have := img.xs_mono hab.le
    rw [decide_eq_true_eq, decide_eq_true_eq]
    omega
  unfold inside
  rw [hfront, hback _ ((range_pairwise 0 img.nx).filter _), List.filter_filter]
  refine List.filter_congr fun ix _ => ?_
  rw [Bool.eq_iff_iff]
  simp only [Bool.and_eq_true, Bool.not_eq_true', decide_eq_false_iff_not, decide_eq_true_eq]
  omega

theorem mem_inside (h : ix ∈ img.inside dx) :
    0 ≤ ix ∧ ix < img.nx ∧ 0 ≤ img.xs ix + dx ∧ img.xs ix + dx ≤ img.width - img.P := by
  rw [inside_eq, List.mem_filter, decide_eq_true_eq, Int.mem_range_iff] at h
  exact ⟨h.1.1, h.1.2, h.2⟩

end Inside

/-! ## The candidates and their keys -/

end Image

/-- A candidate patch. -/
structure Patch where
  t : Int
  y : Int
  x : Int
  deriving DecidableEq

namespace Image

variable (v : Vectors) (img : Image) (y0 x0 : Int) (c : Patch)

/-- The sum over a column of a quarter of the patch. -/
def patchColumn (qy j : Int) : F32 :=
  (Int.range 0 img.q).foldl (fun sum r =>
    let d := v.sub (img.value img.center (y0 + qy * img.q + r) (x0 + j)) (img.value c.t (c.y + qy * img.q + r) (c.x + j))
    v.mulAdd d d sum) F32.zero

def patchQuarter (qy qx : Int) : F32 := pnlmColumns v img.q fun j => img.patchColumn v y0 x0 c qy (qx * img.q + j)

/-- The distance of a patch from the reference at `x0`, `y0`, in the model's order of its sums. -/
def distance : F32 :=
  v.add (v.add (img.patchQuarter v y0 x0 c 0 0) (img.patchQuarter v y0 x0 c 0 1))
    (v.add (img.patchQuarter v y0 x0 c 1 0) (img.patchQuarter v y0 x0 c 1 1))

/-- The bits of the distance, capped at those of an infinite one. -/
def distanceBits : Nat := min (img.distance v y0 x0 c).toNat infBits

/-- The key of the candidate. -/
def patchKey : Nat := packKey (img.distance v y0 x0 c).toNat (pnlmPos c.t c.y c.x)

/-- The model's order: by distance, frame, row and column. -/
def rank : Nat ×ₗ Int ×ₗ Int ×ₗ Int := toLex (img.distanceBits v y0 x0 c, toLex (c.t, toLex (c.y, c.x)))

/-- All patches of all frames in the window that are inside the plane, but the reference. -/
def candidates : List Patch :=
  ((Int.range 0 img.frames).flatMap fun t => (Int.range 0 (img.height - img.P + 1)).flatMap fun y =>
    (Int.range 0 (img.width - img.P + 1)).map fun x => Patch.mk t y x).filter fun c =>
      |c.y - y0| ≤ img.a ∧ |c.x - x0| ≤ img.a ∧ ¬(c.t = img.center ∧ c.y = y0 ∧ c.x = x0)

/-- The nearest of them, at most one less than the group. -/
def nearest : List Patch := (sortBy (img.rank v y0 x0) (img.candidates y0 x0)).take (img.group - 1).toNat

end Image

end NssFactory.Cpu.Pnlm
