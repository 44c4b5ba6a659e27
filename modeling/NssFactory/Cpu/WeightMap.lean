import NssFactory.Lib.CInt
import NssFactory.Lib.MinTree
import Mathlib.Data.Nat.Size
import Mathlib.Data.Nat.Bitwise
import Mathlib.Tactic.Positivity
import Mathlib.Algebra.Order.Monoid.WithTop

/-!
# The weight map of DA3D

`WeightMap` and `IncreaseWeights` of `cpu/da3d/da3d.cpp`. Level `0` of a map holds the weight of
every core pixel, padded with `+inf` to a power of two, level `l` the minima of 2x2 squares of
level `l - 1`; `find_minimum` goes down from the top and returns the pixel that is filtered
next, `IncreaseWeights` adds the weights of its patch and refreshes the squares over it.

`W` stands for the floats a weight can be, the non-negative ones with `+inf`, which `Min` and
`<` order linearly. Every level is an array of its own; an access outside of it returns none.

The squares of level `0` exist when the core has two rows and two columns or more. A core of one
row or of one column, unless it is a single pixel, has a level `0` of one row or column below a
level `1` that reads pairs of them.
-/

namespace NssFactory.Da3d

open CInt

/-! ## Sizes -/

/-- `next_pow2`. -/
def nextPow2 (n : Nat) : Nat :=
  let n := n - 1
  let n := n ||| n >>> 1
  let n := n ||| n >>> 2
  let n := n ||| n >>> 4
  let n := n ||| n >>> 8
  let n := n ||| n >>> 16
  n + 1

def bitsLoop : Nat → Nat → Nat
  | 0, _ => 0
  | fuel + 1, n => if n = 0 then 0 else bitsLoop fuel (n >>> 1) + 1

/-- `number_of_bits`; `n` rounds are more than enough. -/
def numberOfBits (n : Nat) : Nat := bitsLoop n n

/-- The rows, or columns, of level `l` over `n` of level `0`. -/
def side (n : Nat) : Nat → Nat
  | 0 => n
  | l + 1 => ((side n l + 3) >>> 2) <<< 1

/-- Those of them that stand over the core, `vr` and `vc`. -/
def shrunk (n : Nat) : Nat → Nat
  | 0 => n
  | l + 1 => (shrunk n l + 1) >>> 1

def levelCount (h w : Nat) : Nat := max (numberOfBits (h - 1) + 1) (numberOfBits (w - 1) + 1)

/-! ## The map -/

variable {W : Type} [LinearOrder W]

/-- `WeightMap`. -/
structure WeightMap (W : Type) where
  levels : Nat
  width : Nat
  height : Nat
  rows : Nat → Nat
  cols : Nat → Nat
  data : Nat → Nat → W

namespace WeightMap

/-- `init`. The powers of two and the indices `r * cr + c` are `int`. -/
def init [OrderTop W] [Zero W] (h w : Nat) : Option (WeightMap W) :=
  let rows := side (nextPow2 h)
  let cols := side (nextPow2 w)
  if nextPow2 h < 2 ^ 31 ∧ nextPow2 w < 2 ^ 31 ∧ ∀ l < levelCount h w, rows l * cols l ≤ 2 ^ 31 then
    some { levels := levelCount h w, width := w, height := h, rows, cols,
           data := fun l i => if i / cols l < shrunk h l ∧ i % cols l < shrunk w l then 0 else ⊤ }
  else none

variable (m : WeightMap W)

/-- The index of a cell, if it lies in the storage of its level. -/
def index (l r c : Nat) : Option Nat :=
  if r * m.cols l + c < m.rows l * m.cols l then some (r * m.cols l + c) else none

/-- `at`. -/
def entry (l r c : Nat) : Option W := (m.index l r c).map (m.data l)

def store (l i : Nat) (v : W) : WeightMap W :=
  { m with data := Function.update m.data l (Function.update (m.data l) i v) }

def put (l r c : Nat) (v : W) : Option (WeightMap W) := (m.index l r c).map fun i => m.store l i v

/-- `minimum`. -/
def minimum : Option W := m.entry (m.levels - 1) 0 0

/-- A level of `find_minimum`: the candidates in their order, a later one only where it is less. -/
def leastOfSquare (l : Nat) (p : Nat × Nat) : Option (Nat × Nat) := do
  let r := p.1 <<< 1
  let c := p.2 <<< 1
  let best ← m.entry l r c
  let best ← [(r + 1, c), (r, c + 1), (r + 1, c + 1)].foldlM (fun (best : W × Nat × Nat) q => do
    let v ← m.entry l q.1 q.2
    some (if v < best.1 then (v, q) else best)) (best, r, c)
  some best.2

/-- `find_minimum`. -/
def findMinimum : Option (Nat × Nat) :=
  (List.range (m.levels - 1)).reverse.foldlM (fun p l => m.leastOfSquare l p) (0, 0)

/-! ## `IncreaseWeights` -/

def addPixel [Add W] (kk : Nat → W) (row0 col0 : Int) (r : Nat) (m : WeightMap W) (c : Nat) :
    Option (WeightMap W) := do
  let old ← m.entry 0 r c
  m.put 0 r c (old + kk ((r - row0) * 64 - col0 + c).toNat)

def addPatch [Add W] (kk : Nat → W) (row0 col0 : Int) (firstR lastR firstC lastC : Nat) :
    Option (WeightMap W) :=
  between firstR lastR m fun m r => between firstC lastC m (addPixel kk row0 col0 r)

/-- A value of level `l` from the four below. -/
def refreshCell (l r : Nat) (m : WeightMap W) (c : Nat) : Option (WeightMap W) := do
  let a ← m.entry (l - 1) (2 * r) (2 * c)
  let b ← m.entry (l - 1) (2 * r) (2 * c + 1)
  let a' ← m.entry (l - 1) (2 * r + 1) (2 * c)
  let b' ← m.entry (l - 1) (2 * r + 1) (2 * c + 1)
  m.put l r c (min (min (min a b) a') b')

/-- The two rows below, met lane by lane: `m0` and `m1` one after the other. -/
def rowMinima (lanes l r c : Nat) : Option (List W) :=
  (List.range (2 * lanes)).mapM fun k => do
    let a ← m.entry (l - 1) (2 * r) (2 * c + k)
    let a' ← m.entry (l - 1) (2 * r + 1) (2 * c + k)
    some (min a a')

/-- A vector of level `l`: `ConcatEven` and `ConcatOdd` of the two. -/
def refreshVector [OrderTop W] (lanes l r c : Nat) : Option (WeightMap W) := do
  let minima ← m.rowMinima lanes l r c
  between 0 (lanes - 1) m fun m j =>
    m.put l r (c + j) (min (minima.getD (2 * j) ⊤) (minima.getD (2 * j + 1) ⊤))

/-- The vectors of a row: the column they end at, if `fuel` rounds are enough. -/
def vectors [OrderTop W] (lanes l r last : Nat) : Nat → Nat → WeightMap W → Option (Nat × WeightMap W)
  | 0, _, _ => none
  | fuel + 1, c, m =>
    if c ≤ last ∧ 2 * (c + lanes) ≤ m.cols (l - 1) then do
      let m ← m.refreshVector lanes l r c
      vectors lanes l r last fuel (c + lanes) m
    else some (c, m)

/-- Where there are no vectors (`lanes` is 0) the loop over them is left out. -/
def vectorPart [OrderTop W] (lanes l r first last : Nat) : Option (Nat × WeightMap W) :=
  if lanes = 0 then some (first, m) else vectors lanes l r last (m.cols (l - 1) + 1) first m

/-- A row of level `l`. -/
def refreshRow [OrderTop W] (lanes l first last : Nat) (m : WeightMap W) (r : Nat) :
    Option (WeightMap W) := do
  let (c, m) ← m.vectorPart lanes l r first last
  between c last m (refreshCell l r)

def refreshLevel [OrderTop W] (lanes firstR lastR firstC lastC : Nat) (m : WeightMap W) (l : Nat) :
    Option (WeightMap W) :=
  between (firstR >>> l) (lastR >>> l) m (refreshRow lanes l (firstC >>> l) (lastC >>> l))

/-- `IncreaseWeights`. -/
def increaseWeights [OrderTop W] [Add W] (lanes : Nat) (kk : Nat → W) (row0 col0 : Int) :
    Option (WeightMap W) := do
  let firstR := (max 0 row0).toNat
  let lastR := (min (m.height : Int) (row0 + 64) - 1).toNat
  let firstC := (max 0 col0).toNat
  let lastC := (min (m.width : Int) (col0 + 64) - 1).toNat
  let m ← m.addPatch kk row0 col0 firstR lastR firstC lastC
  between 1 (m.levels - 1) m (refreshLevel lanes firstR lastR firstC lastC)

end WeightMap

/-- A call of `IncreaseWeights` by `Da3dDenoise`: the pixel of the patch and its weights. -/
structure Patch (W : Type) where
  row : Nat
  col : Nat
  k : Nat → W

/-- A map after some calls. -/
def run [OrderTop W] [AddZeroClass W] (lanes h w : Nat) (calls : List (Patch W)) : Option (WeightMap W) := do
  let m ← WeightMap.init h w
  calls.foldlM (fun m p => m.increaseWeights lanes p.k ((p.row : Int) - 31) ((p.col : Int) - 31)) m

/-! ## The sizes of the levels -/

section Sizes

variable {n x i d l k r : Nat}

theorem testBit_or_shiftRight (h : ∀ i, n.testBit i = true ↔ ∃ e < d, x.testBit (i + e) = true) (i : Nat) :
    (n ||| n >>> d).testBit i = true ↔ ∃ e < 2 * d, x.testBit (i + e) = true := by
  rw [Nat.testBit_or, Nat.testBit_shiftRight, Bool.or_eq_true, h, h]
  constructor
  · rintro (⟨e, he, hx⟩ | ⟨e, he, hx⟩)
    · exact ⟨e, by omega, hx⟩
    · exact ⟨d + e, by omega, by rwa [show i + (d + e) = d + i + e by omega]⟩
  · rintro ⟨e, he, hx⟩
    by_cases hd : e < d
    · exact .inl ⟨e, hd, hx⟩
    · exact .inr ⟨e - d, by omega, by rwa [show d + i + (e - d) = i + e by omega]⟩

theorem nextPow2_eq (h : n ≤ 2 ^ 32) (hn : 1 ≤ n) : nextPow2 n = 2 ^ (n - 1).size := by
  have h₀ : ∀ i, (n - 1).testBit i = true ↔ ∃ e < 1, (n - 1).testBit (i + e) = true := by
    intro i
    simp
  have hall := testBit_or_shiftRight (testBit_or_shiftRight (testBit_or_shiftRight
    (testBit_or_shiftRight (testBit_or_shiftRight h₀))))
  have hsize : (n - 1).size ≤ 32 := Nat.size_le.mpr (by omega)
  rw [nextPow2, ← Nat.sub_add_cancel (Nat.one_le_two_pow (n := (n - 1).size))]
  congr 1
  refine Nat.eq_of_testBit_eq fun i => Bool.eq_iff_iff.mpr ((hall i).trans ?_)
  rw [Nat.testBit_two_pow_sub_one, decide_eq_true_eq]
  constructor
  · rintro ⟨e, he, hx⟩
    have hlt : 2 ^ (i + e) ≤ n - 1 := Nat.ge_two_pow_of_testBit hx
    have := Nat.lt_size.mpr hlt
    omega
  · intro hi
    have htop : (n - 1).testBit ((n - 1).size - 1) = true := by
      refine Nat.testBit_of_two_pow_le_and_two_pow_add_one_gt ?_ ?_
      · exact Nat.lt_size.mp (by omega)
      · rw [Nat.sub_add_cancel (by omega)]
        exact Nat.lt_size_self _
    exact ⟨(n - 1).size - 1 - i, by omega, by rwa [show i + ((n - 1).size - 1 - i) = (n - 1).size - 1 by omega]⟩

theorem le_nextPow2 (n : Nat) : n ≤ nextPow2 n := by
  have hor : ∀ a k : Nat, a ≤ a ||| a >>> k := fun a k => Nat.left_le_or
  have h := (hor (n - 1) 1).trans ((hor _ 2).trans ((hor _ 4).trans ((hor _ 8).trans (hor _ 16))))
  rw [nextPow2]
  omega

theorem bitsLoop_le_iff {fuel : Nat} (h : n ≤ fuel) : bitsLoop fuel n ≤ k ↔ n < 2 ^ k := by
  induction fuel generalizing n k with
  | zero =>
    obtain rfl : n = 0 := by omega
    simp [bitsLoop]
  | succ fuel ih =>
    rw [bitsLoop]
    split_ifs with hn
    · simp [hn]
    · cases k with
      | zero => simp [hn]
      | succ k =>
        rw [Nat.add_le_add_iff_right, ih (by rw [Nat.shiftRight_one]; omega), Nat.shiftRight_one, pow_succ]
        omega

theorem numberOfBits_eq (n : Nat) : numberOfBits n = n.size :=
  le_antisymm ((bitsLoop_le_iff (Nat.le_refl n)).mpr (Nat.lt_size_self n))
    (Nat.size_le.mpr ((bitsLoop_le_iff (Nat.le_refl n)).mp (Nat.le_refl _)))

theorem side_pow (h : 1 ≤ k) (l : Nat) : side (2 ^ k) l = max 2 (2 ^ (k - l)) := by
  induction l with
  | zero =>
    have : 2 ^ 1 ≤ 2 ^ k := Nat.pow_le_pow_right (by decide) h
    rw [side, Nat.sub_zero]
    exact (max_eq_right this).symm
  | succ l ih =>
    rw [side, ih, Nat.shiftRight_eq_div_pow, Nat.shiftLeft_eq]
    by_cases hl : l + 1 < k
    · have hk : 2 ^ (k - l) = 4 * 2 ^ (k - (l + 1) - 1) := by
        rw [show k - l = k - (l + 1) - 1 + 2 by omega, pow_add]
        omega
      have hk' : 2 ^ (k - (l + 1)) = 2 * 2 ^ (k - (l + 1) - 1) := by
        rw [← pow_succ', Nat.sub_add_cancel (by omega)]
      have := Nat.one_le_two_pow (n := k - (l + 1) - 1)
      omega
    · obtain hkl | hkl : k - l = 0 ∨ k - l = 1 := by omega
      · rw [hkl, show k - (l + 1) = 0 by omega]
        decide
      · rw [hkl, show k - (l + 1) = 0 by omega]
        decide

/-- `r` of level `l` stands over the core if its first pixel lies in it. -/
theorem lt_shrunk_iff : r < shrunk n l ↔ r * 2 ^ l < n := by
  induction l generalizing r with
  | zero => simp [shrunk]
  | succ l ih =>
    rw [shrunk, Nat.shiftRight_one, pow_succ', ← Nat.mul_assoc, Nat.mul_comm r 2, ← ih]
    omega

variable (hn : 2 ≤ n) (hmax : n ≤ 2 ^ 31)

include hn hmax

theorem side_eq (l : Nat) : side (nextPow2 n) l = max 2 (2 ^ ((n - 1).size - l)) := by
  rw [nextPow2_eq (by omega) (by omega)]
  exact side_pow (Nat.size_pos.mpr (by omega)) l

theorem two_le_side (l : Nat) : 2 ≤ side (nextPow2 n) l := by
  rw [side_eq hn hmax]
  exact le_max_left _ _

theorem div_lt_pow (hx : x < n) (l : Nat) : x / 2 ^ l < 2 ^ ((n - 1).size - l) := by
  have hlt : n - 1 < 2 ^ (n - 1).size := Nat.lt_size_self _
  rw [Nat.div_lt_iff_lt_mul (by positivity)]
  have : 2 ^ (n - 1).size ≤ 2 ^ ((n - 1).size - l) * 2 ^ l := by
    rw [← pow_add]
    exact Nat.pow_le_pow_right (by decide) (by omega)
  omega

/-- A cell over the core lies in its level. -/
theorem div_lt_side (hx : x < n) (l : Nat) : x / 2 ^ l < side (nextPow2 n) l := by
  rw [side_eq hn hmax]
  exact lt_max_of_lt_right (div_lt_pow hn hmax hx l)

/-- So do the four cells under it. -/
theorem square_lt_side (hx : x < n) (l : Nat) : 2 * (x / 2 ^ (l + 1)) + 1 < side (nextPow2 n) l := by
  have h := div_lt_pow hn hmax hx (l + 1)
  rw [side_eq hn hmax]
  by_cases hl : l < (n - 1).size
  · have hpow : 2 ^ ((n - 1).size - l) = 2 * 2 ^ ((n - 1).size - (l + 1)) := by
      rw [← pow_succ', show (n - 1).size - (l + 1) + 1 = (n - 1).size - l by omega]
    omega
  · rw [show (n - 1).size - (l + 1) = 0 by omega] at h
    omega

/-- The cells over pairs of a level lie in the next one. -/
theorem side_half (l : Nat) : side (nextPow2 n) l / 2 ≤ side (nextPow2 n) (l + 1) := by
  rw [side_eq hn hmax, side_eq hn hmax]
  by_cases hl : l < (n - 1).size
  · have hpow : 2 ^ ((n - 1).size - l) = 2 * 2 ^ ((n - 1).size - (l + 1)) := by
      rw [← pow_succ', show (n - 1).size - (l + 1) + 1 = (n - 1).size - l by omega]
    omega
  · rw [show (n - 1).size - l = 0 by omega]
    omega

theorem side_le (l : Nat) : side (nextPow2 n) l ≤ nextPow2 n := by
  have hpow : nextPow2 n = 2 ^ (n - 1).size := nextPow2_eq (by omega) (by omega)
  have := le_nextPow2 n
  rw [side_eq hn hmax, hpow]
  exact max_le (by omega) (Nat.pow_le_pow_right (by decide) (by omega))

end Sizes

/-! ## Cells -/

section Cells

variable {m m' : WeightMap W} {l l' r r' c c' i : Nat} {v : W}

omit [LinearOrder W] in
theorem index_eq (hr : r < m.rows l) (hc : c < m.cols l) : m.index l r c = some (r * m.cols l + c) := by
  refine if_pos ?_
  calc r * m.cols l + c < (r + 1) * m.cols l := by rw [Nat.add_mul, Nat.one_mul]; omega
    _ ≤ m.rows l * m.cols l := Nat.mul_le_mul_right _ hr

omit [LinearOrder W] in
theorem entry_eq (hr : r < m.rows l) (hc : c < m.cols l) : m.entry l r c = some (m.data l (r * m.cols l + c)) := by
  rw [WeightMap.entry, index_eq hr hc]
  rfl

omit [LinearOrder W] in
/-- A row beyond the last has no cells. -/
theorem entry_of_rows_le (h : m.rows l ≤ r) (c : Nat) : m.entry l r c = none := by
  have := Nat.mul_le_mul_right (m.cols l) h
  rw [WeightMap.entry, WeightMap.index, if_neg (by omega)]
  rfl

/-- What `put` leaves as it was. -/
structure Shape (m m' : WeightMap W) : Prop where
  levels : m'.levels = m.levels
  width : m'.width = m.width
  height : m'.height = m.height
  rows : m'.rows = m.rows
  cols : m'.cols = m.cols

omit [LinearOrder W] in
theorem Shape.refl (m : WeightMap W) : Shape m m := ⟨rfl, rfl, rfl, rfl, rfl⟩

omit [LinearOrder W] in
theorem Shape.trans {m'' : WeightMap W} (h : Shape m m') (h' : Shape m' m'') : Shape m m'' :=
  ⟨h'.levels.trans h.levels, h'.width.trans h.width, h'.height.trans h.height, h'.rows.trans h.rows,
    h'.cols.trans h.cols⟩

omit [LinearOrder W] in
theorem put_some (h : m.put l r c v = some m') : Shape m m' ∧ ∀ l', l' ≠ l → m'.data l' = m.data l' := by
  obtain ⟨i, -, rfl⟩ := Option.map_eq_some_iff.mp h
  exact ⟨⟨rfl, rfl, rfl, rfl, rfl⟩, fun l' hl => Function.update_of_ne hl _ _⟩

omit [LinearOrder W] in
/-- A write in the storage of a level changes the one cell. -/
theorem put_spec (hr : r < m.rows l) (hc : c < m.cols l) (v : W) :
    ∃ m', m.put l r c v = some m' ∧ Shape m m' ∧ m'.entry l r c = some v ∧
      ∀ l' r' c', r' < m.rows l' → c' < m.cols l' → ¬(l' = l ∧ r' = r ∧ c' = c) →
        m'.entry l' r' c' = m.entry l' r' c' := by
  have hput : m.put l r c v = some (m.store l (r * m.cols l + c) v) := by
    rw [WeightMap.put, index_eq hr hc]
    rfl
  refine ⟨_, hput, ⟨rfl, rfl, rfl, rfl, rfl⟩, ?_, ?_⟩
  · rw [entry_eq (m := m.store l _ v) hr hc]
    simp only [WeightMap.store, Function.update_self]
  · intro l' r' c' hr' hc' hne
    rw [entry_eq (m := m.store l _ v) hr' hc', entry_eq hr' hc']
    by_cases hl : l' = l
    · subst hl
      have hindex : r' * m.cols l' + c' ≠ r * m.cols l' + c := by
        intro heq
        have hrow : r' = r := by
          have h := congrArg (· / m.cols l') heq
          have hpos : 0 < m.cols l' := by omega
          simpa only [Nat.mul_comm _ (m.cols l'), Nat.mul_add_div hpos, Nat.div_eq_of_lt hc,
            Nat.div_eq_of_lt hc', Nat.add_zero] using h
        subst hrow
        exact hne ⟨rfl, rfl, by omega⟩
      simp only [WeightMap.store, Function.update_self, Function.update_of_ne hindex]
    · simp only [WeightMap.store, Function.update_of_ne hl]

end Cells

/-! ## The tree

A map is a tree when the cells of every level hold the minima of the leaves, the weights of
the core and `+inf` around it. In the middle of a call the levels below some `l` hold those of
the new leaves, the levels above those of the old, and of `l` itself some cells are done. -/

section Tree

open MinTree

/-- The map of a core. -/
structure Of (h w : Nat) (m : WeightMap W) : Prop where
  levels : m.levels = levelCount h w
  width : m.width = w
  height : m.height = h
  rows : m.rows = side (nextPow2 h)
  cols : m.cols = side (nextPow2 w)

def Holds (leaf : Nat → Nat → W) (m : WeightMap W) (l : Nat) : Prop :=
  ∀ r < m.rows l, ∀ c < m.cols l, m.entry l r c = some (least leaf l r c)

structure Tree (h w : Nat) (leaf : Nat → Nat → W) (m : WeightMap W) : Prop where
  of : Of h w m
  holds : ∀ l < m.levels, Holds leaf m l

structure Partly (h w : Nat) (leaf leaf' : Nat → Nat → W) (l : Nat) (done : Nat → Nat → Prop)
    (m : WeightMap W) : Prop where
  of : Of h w m
  below : ∀ k < l, Holds leaf' m k
  above : ∀ k, l < k → k < m.levels → Holds leaf m k
  fresh : ∀ r < m.rows l, ∀ c < m.cols l, done r c → m.entry l r c = some (least leaf' l r c)
  stale : ∀ r < m.rows l, ∀ c < m.cols l, ¬done r c → m.entry l r c = some (least leaf l r c)

/-- What must be done is done; vectors do more. -/
def Past (h w : Nat) (leaf leaf' : Nat → Nat → W) (l : Nat) (need : Nat → Nat → Prop) (m : WeightMap W) : Prop :=
  ∃ done, Partly h w leaf leaf' l done m ∧ ∀ r c, need r c → done r c

variable {h w : Nat} {leaf leaf' : Nat → Nat → W} {l r c : Nat} {done need need' : Nat → Nat → Prop}
  {m m' : WeightMap W}

omit [LinearOrder W] in
theorem Of.shape (ho : Of h w m) (hs : Shape m m') : Of h w m' :=
  ⟨hs.levels.trans ho.levels, hs.width.trans ho.width, hs.height.trans ho.height,
    hs.rows.trans ho.rows, hs.cols.trans ho.cols⟩

/-- Writing its new minimum to a cell. -/
theorem Partly.put (hp : Partly h w leaf leaf' l done m) (hr : r < m.rows l) (hc : c < m.cols l) :
    ∃ m', m.put l r c (least leaf' l r c) = some m' ∧
      Partly h w leaf leaf' l (fun r' c' => done r' c' ∨ r' = r ∧ c' = c) m' := by
  obtain ⟨m', hput, hshape, hcell, hother⟩ := put_spec hr hc (least leaf' l r c)
  refine ⟨m', hput, hp.of.shape hshape, fun k hk r' hr' c' hc' => ?_, fun k hk hk' r' hr' c' hc' => ?_,
    fun r' hr' c' hc' hdone => ?_, fun r' hr' c' hc' hdone => ?_⟩
  · rw [hshape.rows] at hr'
    rw [hshape.cols] at hc'
    rw [hother k r' c' hr' hc' (by omega)]
    exact hp.below k hk r' hr' c' hc'
  · rw [hshape.rows] at hr'
    rw [hshape.cols] at hc'
    rw [hother k r' c' hr' hc' (by omega)]
    exact hp.above k hk (hshape.levels ▸ hk') r' hr' c' hc'
  · rw [hshape.rows] at hr'
    rw [hshape.cols] at hc'
    by_cases hcase : r' = r ∧ c' = c
    · obtain ⟨rfl, rfl⟩ := hcase
      exact hcell
    · rw [hother l r' c' hr' hc' (by omega)]
      exact hp.fresh r' hr' c' hc' (hdone.resolve_right hcase)
  · rw [hshape.rows] at hr'
    rw [hshape.cols] at hc'
    rw [hother l r' c' hr' hc' (fun hcase => hdone (.inr hcase.2))]
    exact hp.stale r' hr' c' hc' fun h => hdone (.inl h)

theorem Past.put (hp : Past h w leaf leaf' l need m) (hr : r < m.rows l) (hc : c < m.cols l) :
    ∃ m', m.put l r c (least leaf' l r c) = some m' ∧
      Past h w leaf leaf' l (fun r' c' => need r' c' ∨ r' = r ∧ c' = c) m' := by
  obtain ⟨done, hp, hneed⟩ := hp
  obtain ⟨m', hput, hp'⟩ := hp.put hr hc
  exact ⟨m', hput, _, hp', fun r' c' h => h.imp_left (hneed r' c')⟩

theorem Past.mono (hp : Past h w leaf leaf' l need m) (hsub : ∀ r c, need' r c → need r c) :
    Past h w leaf leaf' l need' m := by
  obtain ⟨done, hp, hneed⟩ := hp
  exact ⟨done, hp, fun r c h => hneed r c (hsub r c h)⟩

theorem Past.of (hp : Past h w leaf leaf' l need m) : Of h w m :=
  let ⟨_, hp, _⟩ := hp
  hp.of

theorem Past.below (hp : Past h w leaf leaf' (l + 1) need m) (hr : r < m.rows l) (hc : c < m.cols l) :
    m.entry l r c = some (least leaf' l r c) :=
  let ⟨_, hp, _⟩ := hp
  hp.below l (Nat.lt_succ_self l) r hr c hc

/-! ### Refreshing -/

theorem Past.refreshCell (hp : Past h w leaf leaf' (l + 1) need m) (hr : 2 * r + 1 < m.rows l)
    (hc : 2 * c + 1 < m.cols l) (hr' : r < m.rows (l + 1)) (hc' : c < m.cols (l + 1)) :
    ∃ m', WeightMap.refreshCell (l + 1) r m c = some m' ∧
      Past h w leaf leaf' (l + 1) (fun r' c' => need r' c' ∨ r' = r ∧ c' = c) m' := by
  have hvalue : min (min (min (least leaf' l (2 * r) (2 * c)) (least leaf' l (2 * r) (2 * c + 1)))
      (least leaf' l (2 * r + 1) (2 * c))) (least leaf' l (2 * r + 1) (2 * c + 1)) =
        least leaf' (l + 1) r c := by
    rw [least, square_eq, min_assoc _ (least leaf' l (2 * r + 1) (2 * c))]
  obtain ⟨m', hput, hp'⟩ := hp.put hr' hc'
  refine ⟨m', ?_, hp'⟩
  simp only [WeightMap.refreshCell, Nat.add_sub_cancel, hp.below (r := 2 * r) (by omega) (c := 2 * c) (by omega),
    hp.below (r := 2 * r) (by omega) hc, hp.below hr (c := 2 * c) (by omega), hp.below hr hc]
  rw [← hvalue] at hput
  exact hput

variable {lanes : Nat}

theorem mapM_some {α β : Type} {f : α → Option β} {g : α → β} {l : List α} (h : ∀ x ∈ l, f x = some (g x)) :
    l.mapM f = some (l.map g) := by
  induction l with
  | nil => rfl
  | cons x l ih =>
    rw [List.mapM_cons, h x List.mem_cons_self, ih fun y hy => h y (List.mem_cons_of_mem _ hy)]
    rfl

theorem Past.refreshVector [OrderTop W] (hp : Past h w leaf leaf' (l + 1) need m) (hlanes : 0 < lanes)
    (hr : 2 * r + 1 < m.rows l) (hc : 2 * (c + lanes) ≤ m.cols l) (hr' : r < m.rows (l + 1))
    (hc' : c + lanes ≤ m.cols (l + 1)) :
    ∃ m', m.refreshVector lanes (l + 1) r c = some m' ∧
      Past h w leaf leaf' (l + 1) (fun r' c' => need r' c' ∨ r' = r ∧ c ≤ c' ∧ c' < c + lanes) m' := by
  obtain ⟨minima, hminima⟩ : ∃ minima : List W, minima = (List.range (2 * lanes)).map fun k =>
      min (least leaf' l (2 * r) (2 * c + k)) (least leaf' l (2 * r + 1) (2 * c + k)) := ⟨_, rfl⟩
  have hload : m.rowMinima lanes (l + 1) r c = some minima := by
    rw [hminima]
    refine mapM_some fun k hk => ?_
    have hk := List.mem_range.mp hk
    simp only [Nat.add_sub_cancel, hp.below (r := 2 * r) (by omega) (c := 2 * c + k) (by omega),
      hp.below hr (c := 2 * c + k) (by omega), Option.bind_eq_bind, Option.bind_some]
  have hlane : ∀ k < 2 * lanes, minima.getD k ⊤ =
      min (least leaf' l (2 * r) (2 * c + k)) (least leaf' l (2 * r + 1) (2 * c + k)) := by
    intro k hk
    simp [hminima, List.getD_eq_getElem?_getD, List.getElem?_range hk]
  have hvalue : ∀ j < lanes, min (minima.getD (2 * j) ⊤) (minima.getD (2 * j + 1) ⊤) =
      least leaf' (l + 1) r (c + j) := by
    intro j hj
    rw [hlane _ (by omega), hlane _ (by omega), least, square, Nat.mul_add, Nat.add_assoc]
  have hround : ∀ s j, 0 ≤ j → j ≤ lanes - 1 →
      Past h w leaf leaf' (l + 1) (fun r' c' => need r' c' ∨ r' = r ∧ c ≤ c' ∧ c' < c + j) s →
      ∃ s', s.put (l + 1) r (c + j) (min (minima.getD (2 * j) ⊤) (minima.getD (2 * j + 1) ⊤)) = some s' ∧
        Past h w leaf leaf' (l + 1) (fun r' c' => need r' c' ∨ r' = r ∧ c ≤ c' ∧ c' < c + (j + 1)) s' := by
    intro s j _ hj hs
    have hrows : s.rows = m.rows := hs.of.rows.trans hp.of.rows.symm
    have hcols : s.cols = m.cols := hs.of.cols.trans hp.of.cols.symm
    obtain ⟨s', hput, hp'⟩ := hs.put (r := r) (c := c + j) (by rw [hrows]; exact hr') (by rw [hcols]; omega)
    refine ⟨s', ?_, hp'.mono fun r' c' h => ?_⟩
    · rw [hvalue j (by omega)]
      exact hput
    · rcases h with h | ⟨rfl, h⟩
      · exact .inl (.inl h)
      · by_cases hcj : c' = c + j
        · exact .inr ⟨rfl, hcj⟩
        · exact .inl (.inr ⟨rfl, by omega⟩)
  obtain ⟨m', hloop, hp'⟩ := between_induct _ (hp.mono fun r' c' h => h.resolve_right (by omega)) hround
  refine ⟨m', ?_, hp'.mono fun r' c' h => h.imp_right (by omega)⟩
  rw [WeightMap.refreshVector, hload]
  exact hloop

/-- The vectors stop before they leave the row below, in as many rounds as it has columns. -/
theorem Past.vectors [OrderTop W] {last fuel : Nat} (hp : Past h w leaf leaf' (l + 1) need m)
    (hlanes : 0 < lanes) (hr : 2 * r + 1 < m.rows l) (hr' : r < m.rows (l + 1))
    (hhalf : m.cols l / 2 ≤ m.cols (l + 1)) (hc : c ≤ m.cols l) (hfuel : m.cols l < fuel + c) :
    ∃ c' m', WeightMap.vectors lanes (l + 1) r last fuel c m = some (c', m') ∧ c ≤ c' ∧
      Past h w leaf leaf' (l + 1) (fun r' x => need r' x ∨ r' = r ∧ c ≤ x ∧ x < c') m' := by
  induction fuel generalizing c m need with
  | zero => omega
  | succ fuel ih =>
    rw [WeightMap.vectors, Nat.add_sub_cancel]
    by_cases hround : c ≤ last ∧ 2 * (c + lanes) ≤ m.cols l
    · rw [if_pos hround]
      obtain ⟨m₁, hstep, hp₁⟩ := hp.refreshVector hlanes hr hround.2 hr' (by omega)
      have hrows : m₁.rows = m.rows := hp₁.of.rows.trans hp.of.rows.symm
      have hcols : m₁.cols = m.cols := hp₁.of.cols.trans hp.of.cols.symm
      obtain ⟨c', m', hloop, hle, hp'⟩ := ih (c := c + lanes) hp₁ (by rw [hrows]; exact hr) (by rw [hrows]; exact hr')
        (by rw [hcols]; exact hhalf) (by rw [hcols]; omega) (by rw [hcols]; omega)
      refine ⟨c', m', ?_, by omega, hp'.mono fun r' x h => ?_⟩
      · rw [hstep]
        exact hloop
      · rcases h with h | ⟨rfl, h⟩
        · exact .inl (.inl h)
        · by_cases hx : x < c + lanes
          · exact .inl (.inr ⟨rfl, by omega⟩)
          · exact .inr ⟨rfl, by omega⟩
    · rw [if_neg hround]
      exact ⟨c, m, rfl, Nat.le_refl c, hp.mono fun r' x h => h.resolve_right (by omega)⟩

/-- The single columns after the vectors. -/
theorem Past.cells {first last : Nat} (hp : Past h w leaf leaf' (l + 1) need m)
    (hr : 2 * r + 1 < m.rows l) (hr' : r < m.rows (l + 1)) (hlast : 2 * last + 1 < m.cols l)
    (hlast' : last < m.cols (l + 1)) :
    ∃ m', between first last m (WeightMap.refreshCell (l + 1) r) = some m' ∧
      Past h w leaf leaf' (l + 1) (fun r' x => need r' x ∨ r' = r ∧ first ≤ x ∧ x ≤ last) m' := by
  have hround : ∀ s x, first ≤ x → x ≤ last →
      Past h w leaf leaf' (l + 1) (fun r' x' => need r' x' ∨ r' = r ∧ first ≤ x' ∧ x' < x) s →
      ∃ s', WeightMap.refreshCell (l + 1) r s x = some s' ∧
        Past h w leaf leaf' (l + 1) (fun r' x' => need r' x' ∨ r' = r ∧ first ≤ x' ∧ x' < x + 1) s' := by
    intro s x _ hx hs
    have hrows : s.rows = m.rows := hs.of.rows.trans hp.of.rows.symm
    have hcols : s.cols = m.cols := hs.of.cols.trans hp.of.cols.symm
    obtain ⟨s', hcell, hs'⟩ := hs.refreshCell (r := r) (c := x) (by rw [hrows]; exact hr) (by rw [hcols]; omega)
      (by rw [hrows]; exact hr') (by rw [hcols]; omega)
    refine ⟨s', hcell, hs'.mono fun r' x' h => ?_⟩
    rcases h with h | ⟨rfl, h⟩
    · exact .inl (.inl h)
    · by_cases hx' : x' = x
      · exact .inr ⟨rfl, hx'⟩
      · exact .inl (.inr ⟨rfl, by omega⟩)
  obtain ⟨m', hloop, hp'⟩ := between_induct _ (hp.mono fun r' c' h => h.resolve_right (by omega)) hround
  exact ⟨m', hloop, hp'.mono fun r' x h => h.imp_right (by omega)⟩

variable (lanes) in
theorem Past.refreshRow [OrderTop W] {first last : Nat} (hp : Past h w leaf leaf' (l + 1) need m)
    (hr : 2 * r + 1 < m.rows l) (hr' : r < m.rows (l + 1)) (hhalf : m.cols l / 2 ≤ m.cols (l + 1))
    (hfirst : first ≤ last) (hlast : 2 * last + 1 < m.cols l) :
    ∃ m', WeightMap.refreshRow lanes (l + 1) first last m r = some m' ∧
      Past h w leaf leaf' (l + 1) (fun r' x => need r' x ∨ r' = r ∧ first ≤ x ∧ x ≤ last) m' := by
  obtain ⟨c, m₁, hvectors, hle, hp₁⟩ : ∃ c m₁, m.vectorPart lanes (l + 1) r first last = some (c, m₁) ∧
      first ≤ c ∧ Past h w leaf leaf' (l + 1) (fun r' x => need r' x ∨ r' = r ∧ first ≤ x ∧ x < c) m₁ := by
    rw [WeightMap.vectorPart]
    by_cases hlanes : lanes = 0
    · rw [if_pos hlanes]
      exact ⟨first, m, rfl, Nat.le_refl _, hp.mono fun r' x h => h.resolve_right (by omega)⟩
    · rw [if_neg hlanes]
      exact hp.vectors (by omega) hr hr' hhalf (by omega) (by rw [Nat.add_sub_cancel]; omega)
  have hrows : m₁.rows = m.rows := hp₁.of.rows.trans hp.of.rows.symm
  have hcols : m₁.cols = m.cols := hp₁.of.cols.trans hp.of.cols.symm
  obtain ⟨m', hcells, hp'⟩ := @Past.cells _ _ h w leaf leaf' l r _ m₁ c last hp₁ (by rw [hrows]; exact hr)
    (by rw [hrows]; exact hr') (by rw [hcols]; exact hlast) (by rw [hcols]; omega)
  refine ⟨m', ?_, hp'.mono fun r' x h => ?_⟩
  · rw [WeightMap.refreshRow, hvectors]
    exact hcells
  · rcases h with h | ⟨rfl, h⟩
    · exact .inl (.inl h)
    · by_cases hx : x < c
      · exact .inl (.inr ⟨rfl, by omega⟩)
      · exact .inr ⟨rfl, by omega⟩

/-- The levels below `l` are up to date. -/
structure Risen (h w : Nat) (leaf leaf' : Nat → Nat → W) (l : Nat) (m : WeightMap W) : Prop where
  of : Of h w m
  below : ∀ k < l, Holds leaf' m k
  above : ∀ k, l ≤ k → k < m.levels → Holds leaf m k

theorem Risen.partly (hm : Risen h w leaf leaf' l m) (hl : l < m.levels) :
    Partly h w leaf leaf' l (fun _ _ => False) m :=
  ⟨hm.of, hm.below, fun k hk => hm.above k (Nat.le_of_lt hk),
    fun _ _ _ _ h => h.elim, fun r hr c hc _ => hm.above l (Nat.le_refl l) hl r hr c hc⟩

theorem Risen.past (hm : Risen h w leaf leaf' l m) (hl : l < m.levels) :
    Past h w leaf leaf' l (fun _ _ => False) m :=
  ⟨_, hm.partly hl, fun _ _ h => h⟩

/-- A level is up to date when what was left as it was has not changed. -/
theorem Past.risen (hp : Past h w leaf leaf' l need m)
    (hsame : ∀ r c, ¬need r c → least leaf l r c = least leaf' l r c) : Risen h w leaf leaf' (l + 1) m := by
  obtain ⟨done, hp, hneed⟩ := hp
  refine ⟨hp.of, fun k hk r hr c hc => ?_, fun k hk => hp.above k hk⟩
  by_cases hkl : k = l
  · subst hkl
    by_cases hdone : done r c
    · exact hp.fresh r hr c hc hdone
    · rw [hp.stale r hr c hc hdone, hsame r c fun h => hdone (hneed r c h)]
  · exact hp.below k (by omega) r hr c hc

variable {firstR lastR firstC lastC : Nat}

/-- Pixels of a patch, and the cells of level `l` over them. -/
def Within (firstR lastR firstC lastC l r c : Nat) : Prop :=
  (firstR / 2 ^ l ≤ r ∧ r ≤ lastR / 2 ^ l) ∧ firstC / 2 ^ l ≤ c ∧ c ≤ lastC / 2 ^ l

theorem least_of_not_within (hsame : ∀ i j, ¬Within firstR lastR firstC lastC 0 i j → leaf i j = leaf' i j)
    (h : ¬Within firstR lastR firstC lastC l r c) : least leaf l r c = least leaf' l r c := by
  refine least_congr fun i j hunder => hsame i j fun hin => h ?_
  obtain ⟨rfl, rfl⟩ := hunder
  simp only [Within, pow_zero, Nat.div_one] at hin
  exact ⟨⟨Nat.div_le_div_right hin.1.1, Nat.div_le_div_right hin.1.2⟩,
    Nat.div_le_div_right hin.2.1, Nat.div_le_div_right hin.2.2⟩

section Levels

variable (hh : 2 ≤ h) (hh' : h ≤ 2 ^ 31) (hw : 2 ≤ w) (hw' : w ≤ 2 ^ 31) (hR : lastR < h) (hC : lastC < w)
  (hle : firstC ≤ lastC)

include hh hh' hw hw' hR hC hle

variable (lanes) in
theorem Past.refreshLevel [OrderTop W] (hp : Past h w leaf leaf' (l + 1) (fun _ _ => False) m) :
    ∃ m', WeightMap.refreshLevel lanes firstR lastR firstC lastC m (l + 1) = some m' ∧
      Past h w leaf leaf' (l + 1) (Within firstR lastR firstC lastC (l + 1)) m' := by
  have hround : ∀ s r, firstR / 2 ^ (l + 1) ≤ r → r ≤ lastR / 2 ^ (l + 1) →
      Past h w leaf leaf' (l + 1) (fun r' c => r' < r ∧ Within firstR lastR firstC lastC (l + 1) r' c) s →
      ∃ s', WeightMap.refreshRow lanes (l + 1) (firstC / 2 ^ (l + 1)) (lastC / 2 ^ (l + 1)) s r = some s' ∧
        Past h w leaf leaf' (l + 1) (fun r' c => r' < r + 1 ∧ Within firstR lastR firstC lastC (l + 1) r' c) s' := by
    intro s r _ hr hs
    have hsquare := square_lt_side hh hh' hR l
    have hside := div_lt_side hh hh' hR (l + 1)
    obtain ⟨s', hrow, hs'⟩ := hs.refreshRow lanes (r := r) (by rw [hs.of.rows]; omega)
      (by rw [hs.of.rows]; omega) (by rw [hs.of.cols]; exact side_half hw hw' l)
      (Nat.div_le_div_right hle) (by rw [hs.of.cols]; exact square_lt_side hw hw' hC l)
    refine ⟨s', hrow, hs'.mono fun r' c h => ?_⟩
    by_cases hr' : r' = r
    · exact .inr ⟨hr', h.2.2⟩
    · exact .inl ⟨by omega, h.2⟩
  obtain ⟨m', hloop, hp'⟩ := between_induct _ (hp.mono fun r c h => by have := h.2.1.1; omega) hround
  refine ⟨m', ?_, hp'.mono fun r c h => ⟨by have := h.1.2; omega, h⟩⟩
  simp only [WeightMap.refreshLevel, Nat.shiftRight_eq_div_pow]
  exact hloop

theorem Risen.levels [OrderTop W] (hsame : ∀ i j, ¬Within firstR lastR firstC lastC 0 i j → leaf i j = leaf' i j)
    (hm : Risen h w leaf leaf' 1 m) (hlevels : 1 ≤ m.levels) :
    ∃ m', between 1 (m.levels - 1) m (WeightMap.refreshLevel lanes firstR lastR firstC lastC) = some m' ∧
      Tree h w leaf' m' := by
  have hround : ∀ s l, 1 ≤ l → l ≤ m.levels - 1 → Risen h w leaf leaf' l s →
      ∃ s', WeightMap.refreshLevel lanes firstR lastR firstC lastC s l = some s' ∧
        Risen h w leaf leaf' (l + 1) s' := by
    intro s l hl hl' hs
    have hlevels : s.levels = m.levels := hs.of.levels.trans hm.of.levels.symm
    obtain ⟨l, rfl⟩ := Nat.exists_eq_add_of_le' hl
    obtain ⟨s', hlevel, hs'⟩ := Past.refreshLevel lanes hh hh' hw hw' hR hC hle (hs.past (by omega))
    exact ⟨s', hlevel, hs'.risen fun r c => least_of_not_within hsame⟩
  obtain ⟨m', hloop, hm'⟩ := between_induct _ hm hround
  refine ⟨m', hloop, hm'.of, fun l hl => hm'.below l ?_⟩
  have hlevels : m'.levels = m.levels := hm'.of.levels.trans hm.of.levels.symm
  omega

end Levels

/-! ### Adding a patch -/

@[simp] theorem within_zero : Within firstR lastR firstC lastC 0 r c ↔
    (firstR ≤ r ∧ r ≤ lastR) ∧ firstC ≤ c ∧ c ≤ lastC := by
  simp [Within]

theorem Partly.congr {done' : Nat → Nat → Prop} (hp : Partly h w leaf leaf' l done m)
    (hdone : ∀ r c, done r c ↔ done' r c) : Partly h w leaf leaf' l done' m :=
  ⟨hp.of, hp.below, hp.above, fun r hr c hc h => hp.fresh r hr c hc ((hdone r c).mpr h),
    fun r hr c hc h => hp.stale r hr c hc fun h' => h ((hdone r c).mp h')⟩

variable [Add W] {kk : Nat → W} {row0 col0 : Int}

theorem Partly.addPixel (hp : Partly h w leaf leaf' 0 done m) (hr : r < m.rows 0) (hc : c < m.cols 0)
    (hnew : ¬done r c) (hadd : leaf r c + kk ((r - row0) * 64 - col0 + c).toNat = leaf' r c) :
    ∃ m', WeightMap.addPixel kk row0 col0 r m c = some m' ∧
      Partly h w leaf leaf' 0 (fun r' c' => done r' c' ∨ r' = r ∧ c' = c) m' := by
  obtain ⟨m', hput, hp'⟩ := hp.put hr hc
  refine ⟨m', ?_, hp'⟩
  rw [WeightMap.addPixel, hp.stale r hr c hc hnew]
  exact (congrArg (m.put 0 r c) hadd).trans hput

theorem Partly.addPatch (hp : Partly h w leaf leaf' 0 (fun _ _ => False) m) (hR : lastR < m.rows 0)
    (hC : lastC < m.cols 0) (hadd : ∀ r c, Within firstR lastR firstC lastC 0 r c →
      leaf r c + kk ((r - row0) * 64 - col0 + c).toNat = leaf' r c) :
    ∃ m', m.addPatch kk row0 col0 firstR lastR firstC lastC = some m' ∧
      Partly h w leaf leaf' 0 (Within firstR lastR firstC lastC 0) m' := by
  have hpixel : ∀ r, firstR ≤ r → r ≤ lastR → ∀ s c, firstC ≤ c → c ≤ lastC →
      Partly h w leaf leaf' 0 (fun r' c' => firstR ≤ r' ∧ r' < r ∧ firstC ≤ c' ∧ c' ≤ lastC ∨
        r' = r ∧ firstC ≤ c' ∧ c' < c) s →
      ∃ s', WeightMap.addPixel kk row0 col0 r s c = some s' ∧
        Partly h w leaf leaf' 0 (fun r' c' => firstR ≤ r' ∧ r' < r ∧ firstC ≤ c' ∧ c' ≤ lastC ∨
          r' = r ∧ firstC ≤ c' ∧ c' < c + 1) s' := by
    intro r hr hr' s c hc hc' hs
    have hrows : s.rows = m.rows := hs.of.rows.trans hp.of.rows.symm
    have hcols : s.cols = m.cols := hs.of.cols.trans hp.of.cols.symm
    obtain ⟨s', hpixel, hs'⟩ := hs.addPixel (r := r) (c := c) (by rw [hrows]; omega) (by rw [hcols]; omega)
      (by omega) (hadd r c (by simp only [within_zero]; omega))
    exact ⟨s', hpixel, hs'.congr fun r' c' => by omega⟩
  have hrow : ∀ s r, firstR ≤ r → r ≤ lastR →
      Partly h w leaf leaf' 0 (fun r' c' => firstR ≤ r' ∧ r' < r ∧ firstC ≤ c' ∧ c' ≤ lastC) s →
      ∃ s', between firstC lastC s (WeightMap.addPixel kk row0 col0 r) = some s' ∧
        Partly h w leaf leaf' 0 (fun r' c' => firstR ≤ r' ∧ r' < r + 1 ∧ firstC ≤ c' ∧ c' ≤ lastC) s' := by
    intro s r hr hr' hs
    obtain ⟨s', hloop, hs'⟩ := between_induct _ (hs.congr fun r' c' => by omega) (hpixel r hr hr')
    exact ⟨s', hloop, hs'.congr fun r' c' => by omega⟩
  obtain ⟨m', hloop, hp'⟩ := between_induct _
    (hp.congr fun r' c' => ⟨False.elim, fun h => by omega⟩) hrow
  exact ⟨m', hloop, hp'.congr fun r' c' => by simp only [within_zero]; omega⟩

end Tree

/-! ### A call -/

section Calls

open MinTree

variable [OrderTop W] [AddZeroClass W] {h w lanes : Nat} {weight : Nat → Nat → W} {m : WeightMap W} {p : Patch W}

/-- The leaves of a core. -/
def padded (h w : Nat) (weight : Nat → Nat → W) (i j : Nat) : W := if i < h ∧ j < w then weight i j else ⊤

/-- The weights of a patch, added where it lies. -/
def added (p : Patch W) (weight : Nat → Nat → W) (i j : Nat) : W :=
  if (p.row ≤ i + 31 ∧ i < p.row + 33) ∧ p.col ≤ j + 31 ∧ j < p.col + 33 then
    weight i j + p.k ((i + 31 - p.row) * 64 + (j + 31 - p.col))
  else weight i j

/-- The cores whose levels are made of 2x2 squares: a single pixel has but one level. -/
def Square (h w : Nat) : Prop := 2 ≤ h ∧ 2 ≤ w ∨ h = 1 ∧ w = 1

theorem levelCount_one : levelCount 1 1 = 1 := by decide

variable (lanes) in
/-- A call keeps the tree, with the weights of the patch added to the leaves. -/
theorem Tree.increaseWeights (ht : Tree h w (padded h w weight) m) (hsquare : Square h w) (hh : h ≤ 2 ^ 31)
    (hw : w ≤ 2 ^ 31) (hrow : p.row < h) (hcol : p.col < w) :
    ∃ m', m.increaseWeights lanes p.k ((p.row : Int) - 31) ((p.col : Int) - 31) = some m' ∧
      Tree h w (padded h w (added p weight)) m' := by
  have hfirst : ∀ x : Nat, (max 0 ((x : Int) - 31)).toNat = x - 31 := by omega
  have hlast : ∀ n x : Nat, (min (n : Int) ((x : Int) - 31 + 64) - 1).toNat = min n (x + 33) - 1 := by omega
  have hcovered : ∀ {n x : Nat}, x < n → x < nextPow2 n ∧ min n (x + 33) - 1 < nextPow2 n := by
    intro n x hx
    have := le_nextPow2 n
    omega
  have hlevels : 1 ≤ m.levels := by
    rw [ht.of.levels]
    exact le_max_of_le_left (by omega)
  have hin : ∀ i j, Within (p.row - 31) (min h (p.row + 33) - 1) (p.col - 31) (min w (p.col + 33) - 1) 0 i j ↔
      (i < h ∧ j < w) ∧ (p.row ≤ i + 31 ∧ i < p.row + 33) ∧ p.col ≤ j + 31 ∧ j < p.col + 33 := by
    have hside : ∀ {n x y : Nat}, x < n → (x - 31 ≤ y ∧ y ≤ min n (x + 33) - 1 ↔ y < n ∧ x ≤ y + 31 ∧ y < x + 33) := by
      omega
    intro i j
    rw [within_zero, hside hrow, hside hcol]
    exact and_and_and_comm
  have hstart : Risen h w (padded h w weight) (padded h w (added p weight)) 0 m :=
    ⟨ht.of, fun k hk => by omega, fun k _ hk => ht.holds k hk⟩
  have hadd : ∀ i j, Within (p.row - 31) (min h (p.row + 33) - 1) (p.col - 31) (min w (p.col + 33) - 1) 0 i j →
      padded h w weight i j + p.k (((i : Int) - ((p.row : Int) - 31)) * 64 - ((p.col : Int) - 31) + j).toNat =
        padded h w (added p weight) i j := by
    intro i j hwithin
    obtain ⟨hcore, hpatch⟩ := (hin i j).mp hwithin
    rw [padded, padded, if_pos hcore, if_pos hcore, added, if_pos hpatch]
    congr 2
    omega
  have hsame : ∀ i j, ¬Within (p.row - 31) (min h (p.row + 33) - 1) (p.col - 31) (min w (p.col + 33) - 1) 0 i j →
      padded h w weight i j = padded h w (added p weight) i j := by
    intro i j hout
    rw [hin] at hout
    rw [padded, padded]
    by_cases hcore : i < h ∧ j < w
    · rw [if_pos hcore, if_pos hcore, added, if_neg fun hpatch => hout ⟨hcore, hpatch⟩]
    · rw [if_neg hcore, if_neg hcore]
  have hrows : p.row < m.rows 0 ∧ min h (p.row + 33) - 1 < m.rows 0 := by
    rw [ht.of.rows, side]
    exact hcovered hrow
  have hcols : p.col < m.cols 0 ∧ min w (p.col + 33) - 1 < m.cols 0 := by
    rw [ht.of.cols, side]
    exact hcovered hcol
  obtain ⟨m₁, haddPatch, hp⟩ := (hstart.partly hlevels).addPatch hrows.2 hcols.2 hadd
  have hm₁ : Risen h w (padded h w weight) (padded h w (added p weight)) 1 m₁ :=
    Past.risen ⟨_, hp, fun _ _ h => h⟩ fun r c => least_of_not_within hsame
  have hcall : m.increaseWeights lanes p.k ((p.row : Int) - 31) ((p.col : Int) - 31) =
      between 1 (m₁.levels - 1) m₁ (WeightMap.refreshLevel lanes (p.row - 31) (min h (p.row + 33) - 1)
        (p.col - 31) (min w (p.col + 33) - 1)) := by
    rw [WeightMap.increaseWeights, ht.of.height, ht.of.width, hfirst, hlast, hfirst, hlast, haddPatch]
    rfl
  rw [hcall]
  obtain ⟨hh₂, hw₂⟩ | ⟨rfl, rfl⟩ := hsquare
  · exact hm₁.levels hh₂ hh hw₂ hw (by omega) (by omega) (by omega) hsame
      (hm₁.of.levels.trans ht.of.levels.symm ▸ hlevels)
  · have hone : m₁.levels = 1 := hm₁.of.levels.trans levelCount_one
    rw [hone]
    exact ⟨m₁, rfl, hm₁.of, fun l hl => hm₁.below l (hone ▸ hl)⟩

omit [AddZeroClass W] in
/-- A cell over no pixel of the core holds `+inf`. -/
theorem least_padded_top {l r c : Nat} (h' : ¬(r * 2 ^ l < h ∧ c * 2 ^ l < w)) :
    least (padded h w weight) l r c = ⊤ := by
  refine top_unique (le_least_iff.mpr ?_)
  rintro i j ⟨rfl, rfl⟩
  have hi := Nat.div_mul_le_self i (2 ^ l)
  have hj := Nat.div_mul_le_self j (2 ^ l)
  rw [padded, if_neg (by omega)]

/-- The fill of `init`. -/
theorem least_padded_zero {l r c : Nat} (h' : r * 2 ^ l < h ∧ c * 2 ^ l < w) :
    least (padded h w (fun _ _ => (0 : W))) l r c = 0 := by
  refine le_antisymm ?_ (le_least_iff.mpr fun i j _ => ?_)
  · have hunder : Under l r c (r * 2 ^ l) (c * 2 ^ l) :=
      ⟨Nat.mul_div_cancel _ (by positivity), Nat.mul_div_cancel _ (by positivity)⟩
    have hle := le_least_iff.mp (le_refl (least (padded h w (fun _ _ => (0 : W))) l r c)) _ _ hunder
    rwa [padded, if_pos h'] at hle
  · rw [padded]
    split_ifs
    · exact le_refl _
    · exact le_top

/-- The indices of level `0`, and with them those of the others, are `int`. -/
def Indexed (h w : Nat) : Prop := nextPow2 h * nextPow2 w ≤ 2 ^ 31

theorem Indexed.le (hindexed : Indexed h w) (hh : 1 ≤ h) (hw : 1 ≤ w) : h ≤ 2 ^ 31 ∧ w ≤ 2 ^ 31 := by
  have hh' := le_nextPow2 h
  have hw' := le_nextPow2 w
  rw [Indexed] at hindexed
  constructor
  · calc h ≤ nextPow2 h * 1 := by omega
      _ ≤ nextPow2 h * nextPow2 w := Nat.mul_le_mul_left _ (by omega)
      _ ≤ 2 ^ 31 := hindexed
  · calc w ≤ 1 * nextPow2 w := by omega
      _ ≤ nextPow2 h * nextPow2 w := Nat.mul_le_mul_right _ (by omega)
      _ ≤ 2 ^ 31 := hindexed

theorem tree_init (hsquare : Square h w) (hindexed : Indexed h w) :
    ∃ m, WeightMap.init h w = some m ∧ Tree h w (padded h w (fun _ _ => (0 : W))) m := by
  have hsizes : nextPow2 h < 2 ^ 31 ∧ nextPow2 w < 2 ^ 31 ∧
      ∀ l < levelCount h w, side (nextPow2 h) l * side (nextPow2 w) l ≤ 2 ^ 31 := by
    obtain ⟨hh, hw⟩ | ⟨rfl, rfl⟩ := hsquare
    · obtain ⟨hh', hw'⟩ := hindexed.le (by omega) (by omega)
      have hle := fun l => Nat.mul_le_mul (side_le hh hh' l) (side_le hw hw' l)
      rw [Indexed] at hindexed
      have h₁ := Nat.mul_le_mul_left (nextPow2 h) ((Nat.le_of_eq rfl).trans (hw.trans (le_nextPow2 w)))
      have h₂ := Nat.mul_le_mul_right (nextPow2 w) ((Nat.le_of_eq rfl).trans (hh.trans (le_nextPow2 h)))
      exact ⟨by omega, by omega, fun l _ => (hle l).trans hindexed⟩
    · refine ⟨by decide, by decide, fun l hl => ?_⟩
      rw [levelCount_one] at hl
      obtain rfl : l = 0 := by omega
      decide
  refine ⟨_, if_pos hsizes, ⟨rfl, rfl, rfl, rfl, rfl⟩, fun l _ r hr c hc => ?_⟩
  rw [entry_eq hr hc]
  have hc : c < side (nextPow2 w) l := hc
  have hdiv : (r * side (nextPow2 w) l + c) / side (nextPow2 w) l = r := by
    rw [Nat.mul_comm, Nat.mul_add_div (by omega), Nat.div_eq_of_lt hc, Nat.add_zero]
  have hmod : (r * side (nextPow2 w) l + c) % side (nextPow2 w) l = c := by
    rw [Nat.mul_comm, Nat.mul_add_mod, Nat.mod_eq_of_lt hc]
  simp only [hdiv, hmod, lt_shrunk_iff]
  by_cases hcore : r * 2 ^ l < h ∧ c * 2 ^ l < w
  · rw [if_pos hcore, least_padded_zero hcore]
  · rw [if_neg hcore, least_padded_top hcore]

/-! ### The minimum -/

theorem lt_two_pow_levels {i j : Nat} (hi : i < h) (hj : j < w) :
    i < 2 ^ (levelCount h w - 1) ∧ j < 2 ^ (levelCount h w - 1) := by
  have hlevels : levelCount h w - 1 = max (h - 1).size (w - 1).size := by
    rw [levelCount, numberOfBits_eq, numberOfBits_eq]
    omega
  have hi' : i < 2 ^ (h - 1).size := lt_of_le_of_lt (by omega) (Nat.lt_size_self (h - 1))
  have hj' : j < 2 ^ (w - 1).size := lt_of_le_of_lt (by omega) (Nat.lt_size_self (w - 1))
  rw [hlevels]
  exact ⟨hi'.trans_le (Nat.pow_le_pow_right (by decide) (le_max_left _ _)),
    hj'.trans_le (Nat.pow_le_pow_right (by decide) (le_max_right _ _))⟩

omit [OrderTop W] [AddZeroClass W] in
/-- The candidate that is kept is the first that holds the minimum. -/
theorem leastOfSquare_eq {value : Nat → Nat → W} {l r c : Nat}
    (h₀ : m.entry l (2 * r) (2 * c) = some (value (2 * r) (2 * c)))
    (h₁ : m.entry l (2 * r + 1) (2 * c) = some (value (2 * r + 1) (2 * c)))
    (h₂ : m.entry l (2 * r) (2 * c + 1) = some (value (2 * r) (2 * c + 1)))
    (h₃ : m.entry l (2 * r + 1) (2 * c + 1) = some (value (2 * r + 1) (2 * c + 1))) :
    m.leastOfSquare l (r, c) = some (first value (square value r c) r c) := by
  have hdouble : ∀ n : Nat, n <<< 1 = 2 * n := fun n => by rw [Nat.shiftLeft_eq]; omega
  simp only [WeightMap.leastOfSquare, hdouble, h₀, h₁, h₂, h₃, List.foldlM_cons, List.foldlM_nil,
    Option.bind_eq_bind, Option.bind_some, Option.pure_def, Option.some.injEq]
  rw [first, square]
  grind

section Square

variable {l r c : Nat} (hsquare : Square h w) (hh : h ≤ 2 ^ 31) (hw : w ≤ 2 ^ 31)

include hsquare hh hw

omit [LinearOrder W] [OrderTop W] [AddZeroClass W] in
/-- A cell over the core lies in its level. -/
theorem Of.over (ho : Of h w m) (hl : l < m.levels) (hr : r * 2 ^ l < h) (hc : c * 2 ^ l < w) :
    r < m.rows l ∧ c < m.cols l := by
  rw [ho.rows, ho.cols]
  obtain ⟨hh₂, hw₂⟩ | ⟨rfl, rfl⟩ := hsquare
  · have hrow := div_lt_side hh₂ hh hr l
    have hcol := div_lt_side hw₂ hw hc l
    rw [Nat.mul_div_cancel _ (by positivity)] at hrow hcol
    exact ⟨hrow, hcol⟩
  · rw [ho.levels, levelCount_one] at hl
    obtain rfl : l = 0 := by omega
    have hone : side (nextPow2 1) 0 = 1 := by decide
    rw [pow_zero] at hr hc
    rw [hone]
    omega

omit [AddZeroClass W] in
/-- A level of the walk down: from a cell over the core to the first of the four that holds its
minimum, which stands over the core again. -/
theorem Of.leastOfSquare {weight : Nat → Nat → W} (ho : Of h w m) (hholds : Holds (padded h w weight) m l)
    (hl : l + 1 < m.levels) (hr : r * 2 ^ (l + 1) < h) (hc : c * 2 ^ (l + 1) < w) :
    ∃ q : Nat × Nat, q = first (least (padded h w weight) l) (least (padded h w weight) (l + 1) r c) r c ∧
      m.leastOfSquare l (r, c) = some q ∧ q.1 * 2 ^ l < h ∧ q.2 * 2 ^ l < w := by
  have htwo : 2 ≤ h ∧ 2 ≤ w := by
    refine hsquare.resolve_right ?_
    rintro ⟨rfl, rfl⟩
    rw [ho.levels, levelCount_one] at hl
    omega
  have hrow := square_lt_side htwo.1 hh hr l
  have hcol := square_lt_side htwo.2 hw hc l
  rw [Nat.mul_div_cancel _ (by positivity), ← ho.rows] at hrow
  rw [Nat.mul_div_cancel _ (by positivity), ← ho.cols] at hcol
  have hcell : ∀ r' c', r' ≤ 2 * r + 1 → c' ≤ 2 * c + 1 →
      m.entry l r' c' = some (least (padded h w weight) l r' c') :=
    fun r' c' hr' hc' => hholds r' (by omega) c' (by omega)
  refine ⟨_, rfl, leastOfSquare_eq (hcell _ _ (by omega) (by omega)) (hcell _ _ (by omega) (by omega))
    (hcell _ _ (by omega) (by omega)) (hcell _ _ (by omega) (by omega)), ?_⟩
  by_contra hout
  -- a cell off the core holds `+inf`, and so would the first of the four
  have htop := (first_value (rfl : least (padded h w weight) (l + 1) r c = _)).symm.trans (least_padded_top hout)
  have hfirst : least (padded h w weight) l (2 * r) (2 * c) = least (padded h w weight) (l + 1) r c := by
    rw [htop]
    exact top_unique (htop ▸ (le_square_iff.mp (le_refl _) 0 (by decide) 0 (by decide)))
  refine hout ?_
  have hdouble : ∀ x, x * 2 ^ (l + 1) = 2 * x * 2 ^ l := fun x => by rw [pow_succ', ← Nat.mul_assoc, Nat.mul_comm x 2]
  rw [hdouble] at hr hc
  rw [first, if_pos hfirst]
  exact ⟨hr, hc⟩

omit [AddZeroClass W] in
/-- `find_minimum` from any cell over the core. -/
theorem Tree.descend {weight : Nat → Nat → W} (ht : Tree h w (padded h w weight) m) {q : Nat × Nat}
    (hl : l < m.levels) (hr : q.1 * 2 ^ l < h) (hc : q.2 * 2 ^ l < w) :
    (List.range l).reverse.foldlM (fun p l => m.leastOfSquare l p) q =
        some (MinTree.descend (padded h w weight) l q) ∧
      (MinTree.descend (padded h w weight) l q).1 < h ∧ (MinTree.descend (padded h w weight) l q).2 < w := by
  induction l generalizing q with
  | zero => exact ⟨rfl, by simpa [MinTree.descend] using hr, by simpa [MinTree.descend] using hc⟩
  | succ l ih =>
    obtain ⟨q', hq', hstep, hr', hc'⟩ := ht.of.leastOfSquare hsquare hh hw (ht.holds l (by omega)) hl hr hc
    rw [List.range_succ, List.reverse_append, List.reverse_singleton, List.singleton_append, List.foldlM_cons,
      hstep, MinTree.descend, ← hq']
    exact ih (by omega) hr' hc'

end Square

/-! ### All runs -/

/-- The weights of the core after some calls. -/
def weights (calls : List (Patch W)) : Nat → Nat → W := calls.foldl (fun weight p => added p weight) fun _ _ => 0

variable (lanes) in
/-- The calls of a run, one after the other. -/
theorem Tree.calls (hsquare : Square h w) (hh : h ≤ 2 ^ 31) (hw : w ≤ 2 ^ 31)
    (ht : Tree h w (padded h w weight) m) {calls : List (Patch W)}
    (hcalls : ∀ p ∈ calls, p.row < h ∧ p.col < w) :
    ∃ m', calls.foldlM (fun m p => m.increaseWeights lanes p.k ((p.row : Int) - 31) ((p.col : Int) - 31)) m =
        some m' ∧ Tree h w (padded h w (calls.foldl (fun weight p => added p weight) weight)) m' := by
  induction calls generalizing m weight with
  | nil => exact ⟨m, rfl, ht⟩
  | cons p calls ih =>
    obtain ⟨hrow, hcol⟩ := hcalls p List.mem_cons_self
    obtain ⟨m₁, hcall, ht₁⟩ := ht.increaseWeights lanes hsquare hh hw hrow hcol
    obtain ⟨m', hrun, ht'⟩ := ih ht₁ fun q hq => hcalls q (List.mem_cons_of_mem _ hq)
    refine ⟨m', ?_, ht'⟩
    rw [List.foldlM_cons, hcall]
    exact hrun

theorem run_tree (hsquare : Square h w) (hindexed : Indexed h w) {calls : List (Patch W)}
    (hcalls : ∀ p ∈ calls, p.row < h ∧ p.col < w) :
    ∃ m, run lanes h w calls = some m ∧ Tree h w (padded h w (weights calls)) m := by
  have hone : 1 ≤ h ∧ 1 ≤ w := by
    rcases hsquare with h' | h' <;> omega
  obtain ⟨hh, hw⟩ := hindexed.le hone.1 hone.2
  obtain ⟨m, hinit, ht⟩ := @tree_init W _ _ _ h w hsquare hindexed
  obtain ⟨m', hrun, ht'⟩ := ht.calls lanes hsquare hh hw hcalls
  refine ⟨m', ?_, ht'⟩
  rw [run, hinit]
  exact hrun

/-- What the map is for: its entries are minima over the core, `minimum` the least weight and
`find_minimum` the pixel that the first minima lead to. -/
structure MinTreeOver (h w : Nat) (weight : Nat → Nat → W) (m : WeightMap W) : Prop where
  pixels : ∀ i < h, ∀ j < w, m.entry 0 i j = some (weight i j)
  cells : ∀ l r c, 1 ≤ l → l < m.levels → (∃ i < h, ∃ j < w, Under l r c i j) →
    ∃ v, m.entry l r c = some v ∧ IsLeast {x | ∃ i < h, ∃ j < w, Under l r c i j ∧ x = weight i j} v
  least : ∃ v, m.minimum = some v ∧ IsLeast {x | ∃ i < h, ∃ j < w, x = weight i j} v
  found : ∃ i < h, ∃ j < w, m.findMinimum = some (i, j) ∧ m.minimum = some (weight i j) ∧
    (i, j) = descend (padded h w weight) (m.levels - 1) (0, 0)

/-- In every run no access leaves its level, and the map is what it should be. -/
def Sound (W : Type) [LinearOrder W] [OrderTop W] [AddZeroClass W] (lanes h w : Nat) : Prop :=
  ∀ calls : List (Patch W), (∀ p ∈ calls, p.row < h ∧ p.col < w) →
    ∃ m, run lanes h w calls = some m ∧ MinTreeOver h w (weights calls) m

omit [AddZeroClass W] in
theorem isLeast_padded {l r c : Nat} (hcore : r * 2 ^ l < h ∧ c * 2 ^ l < w) :
    IsLeast {x | ∃ i < h, ∃ j < w, Under l r c i j ∧ x = weight i j} (least (padded h w weight) l r c) := by
  have hbound : ∀ i < h, ∀ j < w, Under l r c i j → least (padded h w weight) l r c ≤ weight i j := by
    intro i hi j hj hunder
    have hle := le_least_iff.mp (le_refl (least (padded h w weight) l r c)) i j hunder
    rwa [padded, if_pos ⟨hi, hj⟩] at hle
  constructor
  · obtain ⟨hunder, hleaf⟩ := descend_spec (padded h w weight) l (r, c)
    by_cases hin : (descend (padded h w weight) l (r, c)).1 < h ∧ (descend (padded h w weight) l (r, c)).2 < w
    · rw [padded, if_pos hin] at hleaf
      exact ⟨_, hin.1, _, hin.2, hunder, hleaf.symm⟩
    · -- the minimum is `+inf`, which the first pixel then holds too
      rw [padded, if_neg hin] at hleaf
      have hfirst : Under l r c (r * 2 ^ l) (c * 2 ^ l) :=
        ⟨Nat.mul_div_cancel _ (by positivity), Nat.mul_div_cancel _ (by positivity)⟩
      have hle := hbound _ hcore.1 _ hcore.2 hfirst
      rw [← hleaf, top_le_iff] at hle
      exact ⟨_, hcore.1, _, hcore.2, hfirst, hleaf.symm.trans hle.symm⟩
  · rintro x ⟨i, hi, j, hj, hunder, rfl⟩
    exact hbound i hi j hj hunder

omit [AddZeroClass W] in
theorem Tree.minTreeOver (ht : Tree h w (padded h w weight) m) (hsquare : Square h w) (hindexed : Indexed h w) :
    MinTreeOver h w weight m := by
  have hone : 1 ≤ h ∧ 1 ≤ w := by
    rcases hsquare with h' | h' <;> omega
  obtain ⟨hh, hw⟩ := hindexed.le hone.1 hone.2
  have hlevels : 1 ≤ m.levels := by
    rw [ht.of.levels]
    exact le_max_of_le_left (by omega)
  have hcell : ∀ l r c, l < m.levels → r * 2 ^ l < h ∧ c * 2 ^ l < w →
      m.entry l r c = some (MinTree.least (padded h w weight) l r c) := by
    intro l r c hl hcore
    obtain ⟨hr, hc⟩ := ht.of.over hsquare hh hw hl hcore.1 hcore.2
    exact ht.holds l hl r hr c hc
  have htop : 0 * 2 ^ (m.levels - 1) < h ∧ 0 * 2 ^ (m.levels - 1) < w := by omega
  have hmin : m.minimum = some (MinTree.least (padded h w weight) (m.levels - 1) 0 0) :=
    hcell _ 0 0 (by omega) htop
  have hall : ∀ i < h, ∀ j < w, Under (m.levels - 1) 0 0 i j := by
    intro i hi j hj
    obtain ⟨hi', hj'⟩ := lt_two_pow_levels hi hj
    rw [ht.of.levels]
    exact ⟨Nat.div_eq_of_lt hi', Nat.div_eq_of_lt hj'⟩
  refine ⟨fun i hi j hj => ?_, fun l r c _ hl hover => ?_, ⟨_, hmin, ?_⟩, ?_⟩
  · rw [hcell 0 i j (by omega) (by omega), MinTree.least, padded, if_pos ⟨hi, hj⟩]
  · obtain ⟨i, hi, j, hj, rfl, rfl⟩ := hover
    have hcore : i / 2 ^ l * 2 ^ l < h ∧ j / 2 ^ l * 2 ^ l < w :=
      ⟨(Nat.div_mul_le_self _ _).trans_lt hi, (Nat.div_mul_le_self _ _).trans_lt hj⟩
    exact ⟨_, hcell l _ _ hl hcore, isLeast_padded hcore⟩
  · obtain ⟨⟨i, hi, j, hj, _, hv⟩, hle⟩ :=
      @isLeast_padded W _ _ h w weight _ _ _ htop
    refine ⟨⟨i, hi, j, hj, hv⟩, ?_⟩
    rintro x ⟨i, hi, j, hj, rfl⟩
    exact hle ⟨i, hi, j, hj, hall i hi j hj, rfl⟩
  · obtain ⟨hfind, hi, hj⟩ := ht.descend hsquare hh hw (q := (0, 0)) (by omega) htop.1 htop.2
    obtain ⟨-, hleaf⟩ := descend_spec (padded h w weight) (m.levels - 1) (0, 0)
    rw [padded, if_pos ⟨hi, hj⟩] at hleaf
    exact ⟨_, hi, _, hj, hfind, hleaf ▸ hmin, rfl⟩

theorem sound_of_square (hsquare : Square h w) (hindexed : Indexed h w) (lanes : Nat) : Sound W lanes h w := by
  intro calls hcalls
  obtain ⟨m, hrun, ht⟩ := @run_tree W _ _ _ h w lanes hsquare hindexed calls hcalls
  exact ⟨m, hrun, ht.minTreeOver hsquare hindexed⟩

/-! ### Cores of one row or column -/

/-- A core whose indices are too large for an `int`. -/
theorem init_of_not_indexed (h' : ¬Indexed h w) : WeightMap.init h w = (none : Option (WeightMap W)) := by
  refine if_neg fun ⟨_, _, hall⟩ => h' ?_
  exact hall 0 (lt_max_of_lt_left (by omega))

theorem of_init (hinit : WeightMap.init h w = some m) : Of h w m := by
  rw [WeightMap.init] at hinit
  split_ifs at hinit
  obtain rfl := Option.some.inj hinit
  exact ⟨rfl, rfl, rfl, rfl, rfl⟩

theorem one_lt_levelCount (h' : 2 ≤ h ∨ 2 ≤ w) : 1 < levelCount h w := by
  rw [levelCount, numberOfBits_eq, numberOfBits_eq]
  rcases h' with h' | h'
  · have := Nat.size_pos.mpr (show 0 < h - 1 by omega)
    omega
  · have := Nat.size_pos.mpr (show 0 < w - 1 by omega)
    omega

omit [OrderTop W] [AddZeroClass W] in
/-- The walk down reads a second row of level `0`. -/
theorem findMinimum_of_row (hlevels : 1 < m.levels) (hrows : m.rows 0 = 1) : m.findMinimum = none := by
  have hlast : ∀ p, m.leastOfSquare 0 p = none := by
    intro p
    have hsecond : m.entry 0 (p.1 <<< 1 + 1) (p.2 <<< 1) = none := entry_of_rows_le (by omega) _
    simp only [WeightMap.leastOfSquare, List.foldlM_cons, hsecond]
    cases m.entry 0 (p.1 <<< 1) (p.2 <<< 1) <;> rfl
  obtain ⟨n, hn⟩ : ∃ n, m.levels - 1 = n + 1 := ⟨m.levels - 2, by omega⟩
  rw [WeightMap.findMinimum, hn, List.range_succ_eq_map, List.reverse_cons, List.foldlM_append]
  simp only [List.foldlM_cons, hlast, Option.bind_eq_bind, Option.bind_none, Option.bind_fun_none]

theorem not_sound_row (hw : 2 ≤ w) (lanes : Nat) : ¬Sound W lanes 1 w := by
  intro hsound
  obtain ⟨m, hrun, hm⟩ := hsound [] (fun p hp => absurd hp (List.not_mem_nil))
  obtain ⟨i, -, j, -, hfound, -⟩ := hm.found
  obtain ⟨m', hinit, hm'⟩ := Option.bind_eq_some_iff.mp hrun
  obtain rfl := Option.some.inj hm'
  have ho := of_init hinit
  have hlevels : 1 < m'.levels := ho.levels ▸ one_lt_levelCount (.inr hw)
  have hrows : m'.rows 0 = 1 := by
    rw [ho.rows]
    decide
  rw [findMinimum_of_row hlevels hrows] at hfound
  cases hfound

/-- What a step leaves of the other levels. -/
def Only (l : Nat) (m m' : WeightMap W) : Prop := Shape m m' ∧ ∀ k, k ≠ l → m'.data k = m.data k

section Only

variable {l r c first last : Nat} {m' m'' : WeightMap W}

omit [LinearOrder W] [OrderTop W] [AddZeroClass W] in
theorem Only.refl (l : Nat) (m : WeightMap W) : Only l m m := ⟨Shape.refl m, fun _ _ => rfl⟩

omit [LinearOrder W] [OrderTop W] [AddZeroClass W] in
theorem Only.trans (h₁ : Only l m m') (h₂ : Only l m' m'') : Only l m m'' :=
  ⟨h₁.1.trans h₂.1, fun k hk => (h₂.2 k hk).trans (h₁.2 k hk)⟩

omit [LinearOrder W] [OrderTop W] [AddZeroClass W] in
theorem Only.between {body : WeightMap W → Nat → Option (WeightMap W)}
    (h : CInt.between first last m body = some m')
    (round : ∀ s s' x, body s x = some s' → Only l s s') : Only l m m' :=
  between_run (fun _ s => Only l m s) h (Only.refl l m)
    fun s s' x _ _ hs hbody => hs.trans (round s s' x hbody)

omit [OrderTop W] [AddZeroClass W] in
theorem only_refreshCell (h : WeightMap.refreshCell l r m c = some m') : Only l m m' := by
  simp only [WeightMap.refreshCell, Option.bind_eq_bind, Option.bind_eq_some_iff] at h
  obtain ⟨_, -, _, -, _, -, _, -, hput⟩ := h
  exact put_some hput

omit [AddZeroClass W] in
theorem only_vectors {fuel : Nat} (h : WeightMap.vectors lanes l r last fuel c m = some (first, m')) :
    Only l m m' := by
  induction fuel generalizing c m with
  | zero => cases h
  | succ fuel ih =>
    rw [WeightMap.vectors] at h
    split_ifs at h
    · obtain ⟨m₁, hvector, h⟩ := Option.bind_eq_some_iff.mp h
      obtain ⟨minima, -, hstore⟩ := Option.bind_eq_some_iff.mp hvector
      exact (Only.between hstore fun s s' x => put_some).trans (ih h)
    · cases h
      exact Only.refl l _

omit [AddZeroClass W] in
theorem only_refreshRow (h : WeightMap.refreshRow lanes l first last m r = some m') : Only l m m' := by
  obtain ⟨⟨c, m₁⟩, hvectors, h⟩ := Option.bind_eq_some_iff.mp h
  have hrest := Only.between h fun s s' x => only_refreshCell
  rw [WeightMap.vectorPart] at hvectors
  split_ifs at hvectors
  · cases hvectors
    exact hrest
  · exact (only_vectors hvectors).trans hrest

omit [LinearOrder W] [OrderTop W] in
theorem only_addPatch {kk : Nat → W} {row0 col0 : Int} {firstR lastR firstC lastC : Nat}
    (h : m.addPatch kk row0 col0 firstR lastR firstC lastC = some m') : Only 0 m m' := by
  refine Only.between h fun s s' r hrow => Only.between hrow fun s s' c hpixel => ?_
  obtain ⟨old, -, hput⟩ := Option.bind_eq_some_iff.mp hpixel
  exact put_some hput

omit [AddZeroClass W] in
/-- A level over one column: what it holds is the least of three cells of the level below, and
the third lies under the next. -/
theorem refreshRow_column (hcols : m.cols 0 = 1) (h : WeightMap.refreshRow lanes 1 0 0 m r = some m') :
    2 * r + 2 < m.rows 0 ∧ ∃ v, v ≤ m.data 0 (2 * r + 2) ∧ m.put 1 r 0 v = some m' := by
  have hnone : m.vectorPart lanes 1 r 0 0 = some (0, m) := by
    rw [WeightMap.vectorPart, WeightMap.vectors, hcols]
    split_ifs with h₀ h₁
    · rfl
    · omega
    · rfl
  rw [WeightMap.refreshRow, hnone] at h
  have hcell : WeightMap.refreshCell 1 r m 0 = some m' := by
    have h : between 0 0 m (WeightMap.refreshCell 1 r) = some m' := h
    rw [between_cons (Nat.le_refl 0)] at h
    obtain ⟨s, hcell, hrest⟩ := Option.bind_eq_some_iff.mp h
    rw [between_empty (by omega)] at hrest
    exact hcell.trans hrest
  simp only [WeightMap.refreshCell, Option.bind_eq_bind, Option.bind_eq_some_iff] at hcell
  obtain ⟨a, -, b, -, a', -, b', hb', hput⟩ := hcell
  obtain ⟨i, hi, rfl⟩ := Option.map_eq_some_iff.mp hb'
  simp only [WeightMap.index, hcols, Nat.mul_one, Nat.sub_self] at hi
  split_ifs at hi with hlt
  obtain rfl := Option.some.inj hi
  exact ⟨by omega, _, min_le_right _ _, hput⟩

omit [AddZeroClass W] in
/-- Refreshing level `1` of one column leaves in its first cell no more than the third pixel weighs. -/
theorem refreshLevel_column {lastR : Nat} (hcols : m.cols 0 = 1) (hcols' : m.cols 1 = 2)
    (h : WeightMap.refreshLevel lanes 0 lastR 0 0 m 1 = some m') :
    2 < m.rows 0 ∧ Only 1 m m' ∧ m'.data 1 0 ≤ m.data 0 2 := by
  have h : between 0 (lastR >>> 1) m (WeightMap.refreshRow lanes 1 0 0) = some m' := h
  rw [between_cons (Nat.zero_le _)] at h
  obtain ⟨m₁, hrow, h⟩ := Option.bind_eq_some_iff.mp h
  obtain ⟨htwo, v, hv, hput⟩ := refreshRow_column hcols hrow
  have hfirst : m₁.data 1 0 = v := by
    obtain ⟨i, hi, rfl⟩ := Option.map_eq_some_iff.mp hput
    simp only [WeightMap.index, Nat.zero_mul, Nat.add_zero] at hi
    split_ifs at hi
    obtain rfl := Option.some.inj hi
    simp only [WeightMap.store, Function.update_self]
  have hall : Only 1 m₁ m' ∧ m'.data 1 0 = v := by
    refine between_run (fun r s => Only 1 m₁ s ∧ s.data 1 0 = v) h ⟨Only.refl 1 m₁, hfirst⟩ ?_
    rintro s s' r hr - ⟨honly, hdata⟩ hbody
    have hm : Shape m s := (put_some hput).1.trans honly.1
    obtain ⟨-, v', -, hput'⟩ := refreshRow_column (by rw [hm.cols, hcols]) hbody
    refine ⟨honly.trans (put_some hput'), ?_⟩
    obtain ⟨i, hi, rfl⟩ := Option.map_eq_some_iff.mp hput'
    simp only [WeightMap.index, hm.cols, hcols', Nat.add_zero] at hi
    split_ifs at hi
    obtain rfl := Option.some.inj hi
    have hne : 0 ≠ r * 2 := by omega
    simp only [WeightMap.store, Function.update_self, Function.update_of_ne hne, hdata]
  exact ⟨htwo, Only.trans (put_some hput) hall.1, hall.2.symm ▸ hv⟩

omit [AddZeroClass W] in
/-- The levels above leave both. -/
theorem levels_column {lastR : Nat} (hcols : m.cols 0 = 1) (hcols' : m.cols 1 = 2) (hlevels : 1 < m.levels)
    (h : between 1 (m.levels - 1) m (WeightMap.refreshLevel lanes 0 lastR 0 0) = some m') :
    2 < m.rows 0 ∧ Shape m m' ∧ m'.data 1 0 ≤ m'.data 0 2 := by
  rw [between_cons (by omega)] at h
  obtain ⟨m₁, hlevel, h⟩ := Option.bind_eq_some_iff.mp h
  obtain ⟨htwo, honly, hle⟩ := refreshLevel_column hcols hcols' hlevel
  have hrest : Shape m₁ m' ∧ m'.data 0 = m₁.data 0 ∧ m'.data 1 = m₁.data 1 := by
    refine between_run (fun _ s => Shape m₁ s ∧ s.data 0 = m₁.data 0 ∧ s.data 1 = m₁.data 1) h
      ⟨Shape.refl m₁, rfl, rfl⟩ ?_
    rintro s s' l hl - ⟨hs, h₀, h₁⟩ hbody
    have hstep : Only l s s' := Only.between hbody fun s s' r => only_refreshRow
    exact ⟨hs.trans hstep.1, (hstep.2 0 (by omega)).trans h₀, (hstep.2 1 (by omega)).trans h₁⟩
  refine ⟨htwo, honly.1.trans hrest.1, ?_⟩
  rw [hrest.2.1, hrest.2.2, honly.2 0 (by decide)]
  exact hle

end Only

/-- One patch around the first pixel that leaves the third without weight. -/
theorem not_sound_column {unit : W} (hunit : 0 < unit) (hh : 2 ≤ h) (lanes : Nat) : ¬Sound W lanes h 1 := by
  intro hsound
  let p : Patch W := ⟨0, 0, fun i => if i / 64 ≤ 32 then unit else 0⟩
  have hweight : ∀ i, i < 33 → weights [p] i 0 = if i ≤ 1 then unit else 0 := by
    intro i hi
    have hindex : ((i + 31 - 0) * 64 + (0 + 31 - 0)) / 64 = i + 31 := by omega
    rw [weights, List.foldl_cons, List.foldl_nil, added, if_pos (by simp only [p]; omega), zero_add]
    simp only [p, hindex]
    by_cases hi' : i ≤ 1
    · rw [if_pos (by omega), if_pos hi']
    · rw [if_neg (by omega), if_neg hi']
  obtain ⟨m, hrun, hm⟩ := hsound [p] fun q hq => by
    obtain rfl := List.mem_singleton.mp hq
    exact ⟨by simp only [p]; omega, by simp only [p]; omega⟩
  obtain ⟨m₀, hinit, hcalls⟩ := Option.bind_eq_some_iff.mp hrun
  have hcall : m₀.increaseWeights lanes p.k (-31) (-31) = some m := by
    obtain ⟨s, hcall, hrest⟩ := Option.bind_eq_some_iff.mp hcalls
    exact hcall.trans hrest
  obtain ⟨m₁, hpatch, hlevels⟩ := Option.bind_eq_some_iff.mp hcall
  have ho := of_init hinit
  have ho₁ := ho.shape (only_addPatch hpatch).1
  have hcols : m₁.cols 0 = 1 ∧ m₁.cols 1 = 2 := by
    rw [ho₁.cols]
    decide
  have hlast : (max 0 (-31 : Int)).toNat = 0 ∧ (min (m₀.width : Int) (-31 + 64) - 1).toNat = 0 := by
    rw [ho.width]
    decide
  rw [hlast.1, hlast.2] at hlevels
  obtain ⟨htwo, hshape, hle⟩ := levels_column hcols.1 hcols.2
    (ho₁.levels ▸ one_lt_levelCount (.inl hh)) hlevels
  have hom := ho₁.shape hshape
  -- the pixels are those of the core, since two rows would need a third cell
  have hthree : 3 ≤ h := by
    by_contra hcon
    obtain rfl : h = 2 := by omega
    rw [ho₁.rows] at htwo
    exact absurd htwo (by decide)
  have hthird : m.data 0 2 = 0 := by
    have hentry := hm.pixels 2 (by omega) 0 (by omega)
    obtain ⟨i, hi, hvalue⟩ := Option.map_eq_some_iff.mp hentry
    simp only [WeightMap.index, hshape.cols, hcols.1] at hi
    split_ifs at hi
    obtain rfl := Option.some.inj hi
    rw [hweight 2 (by omega)] at hvalue
    exact hvalue
  obtain ⟨v, hentry, ⟨i, hi, j, hj, ⟨hunder, -⟩, hv⟩, -⟩ := hm.cells 1 0 0 (by omega)
    (hom.levels ▸ one_lt_levelCount (.inl hh)) ⟨0, by omega, 0, by omega, rfl, rfl⟩
  obtain ⟨x, hx, hvalue⟩ := Option.map_eq_some_iff.mp hentry
  simp only [WeightMap.index, Nat.zero_mul, Nat.add_zero] at hx
  split_ifs at hx
  obtain rfl := Option.some.inj hx
  obtain rfl : j = 0 := by omega
  rw [hweight i (by omega), if_pos (by omega)] at hv
  rw [hvalue, hv, hthird] at hle
  exact absurd hle (not_le.mpr hunit)

/-- The cores whose weight map is a min tree over them, whatever the calls. -/
theorem sound_iff_square {unit : W} (hunit : 0 < unit) (hh : 1 ≤ h) (hw : 1 ≤ w) (lanes : Nat) :
    Sound W lanes h w ↔ Square h w ∧ Indexed h w := by
  constructor
  · intro hsound
    have hsquare : Square h w := by
      by_contra hcon
      rw [Square] at hcon
      obtain rfl | hh₂ : h = 1 ∨ 2 ≤ h := by omega
      · exact not_sound_row (by omega) lanes hsound
      · obtain rfl : w = 1 := by omega
        exact not_sound_column hunit hh₂ lanes hsound
    refine ⟨hsquare, ?_⟩
    by_contra hcon
    obtain ⟨m, hrun, -⟩ := hsound [] fun p hp => absurd hp List.not_mem_nil
    rw [run, init_of_not_indexed hcon] at hrun
    cases hrun
  · rintro ⟨hsquare, hindexed⟩
    exact sound_of_square hsquare hindexed lanes

end Calls

/-- A plane of three columns and five rows, its weights counted in naturals. -/
theorem sound_iff_square_five : Sound (WithTop Nat) 4 5 3 ↔ Square 5 3 ∧ Indexed 5 3 :=
  sound_iff_square (show (0 : WithTop Nat) < 1 by decide) (by decide) (by decide) 4

/-- A single row of sixteen pixels. -/
theorem row_not_sound : ¬Sound (WithTop Nat) 4 1 16 := not_sound_row (by decide) 4

end NssFactory.Da3d
