import Mathlib.Algebra.Order.Field.Rat
import Mathlib.Data.List.Nodup
import Mathlib.Logic.Function.Basic
import Mathlib.Tactic.FieldSimp
import Mathlib.Tactic.Linarith
import Mathlib.Tactic.NormNum
import NssFactory.Lib.Loops

/-!
# The streamed aggregation of PNLM

`Plane` of `cpu/pnlm/pnlm.cpp` takes its references a grid row at a time. The estimates of a
row go to a ring of `kRing` rows, and an output row is gathered as soon as no later reference
covers it.

`Plane.run_eq` is the result: every row is gathered once, from the estimates of the references
that cover it, in reference order. What the estimates are, and how they are weighted into a
pixel, is left open: only the tent weights are numbers here, in the rounded arithmetic of a
`float`.
-/

namespace NssFactory.Cpu.Pnlm

open Loops

/-- Grid rows whose estimates are kept. -/
def kRing : Int := 4

def pnlmGridCount (n block : Int) : Int :=
  let q := block / 2
  if n < block then 0 else (n - block + q - 1) / q + 1

def pnlmGridPos (i n block : Int) : Int :=
  let v := i * (block / 2)
  let last := n - block
  if v < last then v else last

/-- Rounding to `float`, where nothing overflows: it keeps the order, and fractions of a power
of two that a `float` has. -/
structure Rounding where
  rnd : ℚ → ℚ
  mono : Monotone rnd
  dyadic : ∀ m k : ℕ, m ≤ 2 ^ 24 → k ≤ 126 → rnd (m / 2 ^ k) = m / 2 ^ k

/-- Arithmetic without rounding. -/
def Rounding.exact : Rounding := ⟨id, monotone_id, fun _ _ _ _ => rfl⟩

/-- The arithmetic of a pixel: `fma` weighs an estimate into the sum, `quot` divides it. -/
structure Arith (V : Type*) extends Rounding where
  zero : V
  fma : ℚ → V → V → V
  quot : V → ℚ → V

/-- `pnlm_tent`; `2 i + 1 - p` is exact. -/
def Rounding.pnlmTent (r : Rounding) (i p : Int) : ℚ :=
  r.rnd (1 - r.rnd (|((2 * i + 1 - p : Int) : ℚ)| / p))

/-- Grid entries along an axis, in the gather order: `lo … hi`, then `last` if it is not
negative. -/
structure Cover where
  lo : Int
  hi : Int
  last : Int

/-- The counters of the gather's loop over an axis. -/
def Cover.rounds (c : Cover) : List Int :=
  Int.range 0 (c.hi - c.lo + (if 0 ≤ c.last then 1 else 0) + 1)

/-- The grid entry of a round. -/
def Cover.entry (c : Cover) (i : Int) : Int := if c.lo + i ≤ c.hi then c.lo + i else c.last

/-- `Plane<Q>` on an image that is no smaller than the patch. -/
structure Plane where
  q : Int
  width : Int
  height : Int
  q_cases : q = 2 ∨ q = 3 ∨ q = 4
  width_le : 2 * q ≤ width
  height_le : 2 * q ≤ height

namespace Plane

variable {V : Type*} (p : Plane)

/-- The side of a patch. -/
def P : Int := 2 * p.q

def nx : Int := pnlmGridCount p.width p.P

def ny : Int := pnlmGridCount p.height p.P

/-- Grid entries that cover `v` along an axis of `n` pixels with `count` entries. -/
def cover (v n count : Int) : Cover :=
  let hi := min (count - 1) (v / p.q)
  let last := n - p.P
  { lo := if v - p.P + 1 ≤ 0 then 0 else (v - p.P + 1 + p.q - 1) / p.q
    hi := hi
    last := if hi < count - 1 ∧ last ≤ v ∧ v < last + p.P then count - 1 else -1 }

variable (a : Arith V)

/-- The body of the gather's inner loop: the weight sum and the weighted sum of a pixel. -/
def gatherAt (est : Int → Int → Int → V) (y x iy gy ix : Int) (s : ℚ × V) : ℚ × V :=
  let gx := pnlmGridPos ix p.width p.P
  if gx > x ∨ x ≥ gx + p.P then s
  else
    let wxy := a.rnd (a.pnlmTent (y - gy) p.P * a.pnlmTent (x - gx) p.P)
    (a.rnd (s.1 + wxy), a.fma wxy (est iy ix ((y - gy) * p.P + (x - gx))) s.2)

/-- Output row `y` from the estimates in the ring. -/
def gather (ring : Int → Int → Int → V) (y : Int) : List V :=
  let cy := p.cover y p.height p.ny
  (Int.range 0 p.width).map fun x =>
    let cx := p.cover x p.width p.nx
    let s := cy.rounds.foldl
      (fun s ia =>
        let iy := cy.entry ia
        let gy := pnlmGridPos iy p.height p.P
        if gy > y ∨ y ≥ gy + p.P then s
        else
          cx.rounds.foldl
            (fun s ib =>
              p.gatherAt a (fun iy ix j => ring (iy % kRing) ix j) y x iy gy (cx.entry ib) s)
            s)
      (0, a.zero)
    a.quot s.2 s.1

/-- The ring, the first output row that is not gathered yet, and the rows that are. -/
structure State (V : Type*) where
  ring : Int → Int → Int → V
  nextRow : Int
  out : List (Int × List V)

/-- The estimates of a grid row. `estimate x0 y0`: that of the reference patch there. -/
def estimateRow (estimate : Int → Int → Int → V) (iy : Int) (ring : Int → Int → Int → V) :
    Int → Int → Int → V :=
  (Int.range 0 p.nx).foldl
    (fun ring ix =>
      Function.update ring (iy % kRing)
        (Function.update (ring (iy % kRing)) ix
          (estimate (pnlmGridPos ix p.width p.P) (pnlmGridPos iy p.height p.P))))
    ring

/-- One grid row, and the output rows above the next one's top. -/
def runRow (estimate : Int → Int → Int → V) (s : State V) (iy : Int) : State V :=
  let ring := p.estimateRow estimate iy s.ring
  let bound := if iy + 1 < p.ny then pnlmGridPos (iy + 1) p.height p.P else p.height
  { ring := ring
    nextRow := max s.nextRow bound
    out := s.out ++ (Int.range s.nextRow bound).map fun y => (y, p.gather a ring y) }

def run (estimate ring : Int → Int → Int → V) : List (Int × List V) :=
  ((Int.range 0 p.ny).foldl (p.runRow a estimate) ⟨ring, 0, []⟩).out

/-! ## The model -/

/-- The patch of grid entry `i` covers `v` along an axis of `n` pixels. -/
def Covers (n v i : Int) : Prop := pnlmGridPos i n p.P ≤ v ∧ v < pnlmGridPos i n p.P + p.P

instance (n v i : Int) : Decidable (p.Covers n v i) := by unfold Covers; infer_instance

/-- The references, in their order. -/
def references : List (Int × Int) :=
  (Int.range 0 p.ny).flatMap fun iy => (Int.range 0 p.nx).map fun ix => (iy, ix)

/-- The references whose patch covers a pixel. -/
def covering (y x : Int) : List (Int × Int) :=
  p.references.filter fun r => p.Covers p.height y r.1 ∧ p.Covers p.width x r.2

/-- The place of a pixel in the patch of a reference. -/
def offset (y x : Int) (r : Int × Int) : Int × Int :=
  (y - pnlmGridPos r.1 p.height p.P, x - pnlmGridPos r.2 p.width p.P)

/-- The tent weight of a reference's estimate at a pixel. -/
def weight (y x : Int) (r : Int × Int) : ℚ :=
  a.rnd (a.pnlmTent (p.offset y x r).1 p.P * a.pnlmTent (p.offset y x r).2 p.P)

/-- The value of a reference's estimate at a pixel. -/
def value (estimate : Int → Int → Int → V) (y x : Int) (r : Int × Int) : V :=
  estimate (pnlmGridPos r.2 p.width p.P) (pnlmGridPos r.1 p.height p.P)
    ((p.offset y x r).1 * p.P + (p.offset y x r).2)

def weightSum (y x : Int) : ℚ :=
  (p.covering y x).foldl (fun d r => a.rnd (d + p.weight a y x r)) 0

/-- The tent-weighted mean of the estimates that cover a pixel. -/
def tentMean (estimate : Int → Int → Int → V) (y x : Int) : V :=
  a.quot ((p.covering y x).foldl (fun n r => a.fma (p.weight a y x r) (p.value estimate y x r) n)
    a.zero) (p.weightSum a y x)

/-! ## Along an axis -/

variable {p} {n v i : Int}

/-- The patches of entries before the last start at multiples of `q`, the last one ends with
the axis. -/
theorem gridPos_cases (hn : p.P ≤ n) (hlt : i < pnlmGridCount n p.P) :
    i + 1 < pnlmGridCount n p.P ∧ pnlmGridPos i n p.P = i * p.q ∧ i * p.q < n - p.P ∨
      i + 1 = pnlmGridCount n p.P ∧ pnlmGridPos i n p.P = n - p.P ∧ n - p.P ≤ i * p.q ∧
        (0 < i → (i - 1) * p.q < n - p.P) := by
  unfold pnlmGridCount pnlmGridPos P at *
  rcases p.q_cases with hq | hq | hq <;> simp only [hq] at * <;> split_ifs at * <;> omega

theorem gridCount_pos (hn : p.P ≤ n) : 0 < pnlmGridCount n p.P := by
  unfold pnlmGridCount P at *
  rcases p.q_cases with hq | hq | hq <;> simp only [hq] at * <;> split_ifs <;> omega

theorem gridPos_zero (hn : p.P ≤ n) : pnlmGridPos 0 n p.P = 0 := by
  unfold pnlmGridPos
  dsimp only
  split_ifs <;> omega

theorem cover_lo_nonneg {count : Int} : 0 ≤ (p.cover v n count).lo := by
  unfold cover P
  rcases p.q_cases with hq | hq | hq <;> simp only [hq] <;> split_ifs <;> omega

theorem cover_last : (p.cover v n (pnlmGridCount n p.P)).last = pnlmGridCount n p.P - 1 ∨
    (p.cover v n (pnlmGridCount n p.P)).last = -1 := by
  unfold cover
  dsimp only
  split_ifs
  · exact .inl rfl
  · exact .inr rfl

/-- The clamped last entry comes after those in the closed form. -/
theorem cover_last_gt : (p.cover v n (pnlmGridCount n p.P)).hi < (p.cover v n (pnlmGridCount n p.P)).last ∨
    (p.cover v n (pnlmGridCount n p.P)).last = -1 := by
  unfold cover
  dsimp only
  by_cases hlast : min (pnlmGridCount n p.P - 1) (v / p.q) < pnlmGridCount n p.P - 1 ∧ n - p.P ≤ v ∧ v < n - p.P + p.P
  · rw [if_pos hlast]
    exact .inl hlast.1
  · exact .inr (if_neg hlast)

/-- A covering entry is in the closed form, or it is the clamped last one. -/
theorem cover_of_covers (hn : p.P ≤ n) (hv : 0 ≤ v) (hvn : v < n) (hi : 0 ≤ i)
    (hlt : i < pnlmGridCount n p.P) (hcovers : p.Covers n v i) :
    (p.cover v n (pnlmGridCount n p.P)).lo ≤ i ∧ i ≤ (p.cover v n (pnlmGridCount n p.P)).hi ∨
      (p.cover v n (pnlmGridCount n p.P)).lo ≤ (p.cover v n (pnlmGridCount n p.P)).hi + 1 ∧
        (p.cover v n (pnlmGridCount n p.P)).hi < i ∧
        (p.cover v n (pnlmGridCount n p.P)).last = i := by
  obtain ⟨hpos, hend⟩ := hcovers
  have hcases := gridPos_cases hn hlt
  have hP : p.P = 2 * p.q := rfl
  unfold cover
  generalize pnlmGridCount n p.P = count at *
  generalize pnlmGridPos i n p.P = pos at *
  rcases p.q_cases with hq | hq | hq <;> simp only [hq] at * <;> split_ifs <;> omega

/-- The gather's loop over an axis visits the covering entries, each once, in their order. -/
theorem cover_entries (hn : p.P ≤ n) (hv : 0 ≤ v) (hvn : v < n) :
    (((p.cover v n (pnlmGridCount n p.P)).rounds.map
        (p.cover v n (pnlmGridCount n p.P)).entry).filter (p.Covers n v ·)) =
      (Int.range 0 (pnlmGridCount n p.P)).filter (p.Covers n v ·) := by
  apply eq_of_increasing
  · apply List.Pairwise.filter
    rw [List.pairwise_map]
    apply (range_pairwise _ _).imp_of_mem
    intro x y _ hy hxy
    have hy := Int.mem_range_iff.mp hy
    have hlast := cover_last_gt (p := p) (v := v) (n := n)
    generalize p.cover v n (pnlmGridCount n p.P) = c at *
    unfold Cover.entry
    by_cases hlisted : 0 ≤ c.last
    · rw [if_pos hlisted] at hy
      split <;> split <;> omega
    · rw [if_neg hlisted] at hy
      rw [if_pos (by omega), if_pos (by omega)]
      omega
  · exact (range_pairwise _ _).filter _
  · intro x
    simp only [List.mem_filter, List.mem_map, decide_eq_true_eq, Cover.rounds, Int.mem_range_iff,
      and_congr_left_iff]
    intro hcovers
    have hcount := gridCount_pos hn
    constructor
    · rintro ⟨i, hi, rfl⟩
      have hlo : 0 ≤ (p.cover v n (pnlmGridCount n p.P)).lo := cover_lo_nonneg
      have hhi : (p.cover v n (pnlmGridCount n p.P)).hi ≤ pnlmGridCount n p.P - 1 :=
        min_le_left _ _
      have hlast := cover_last (p := p) (v := v) (n := n)
      unfold Cover.entry
      split_ifs at hi ⊢ <;> omega
    · intro hx
      rcases cover_of_covers hn hv hvn hx.1 hx.2 hcovers with ⟨hlo, hhi⟩ | ⟨hlo, hhi, hlast⟩
      · refine ⟨x - (p.cover v n (pnlmGridCount n p.P)).lo, ?_, ?_⟩
        · split_ifs <;> omega
        · rw [Cover.entry, if_pos (by omega)]
          omega
      · refine ⟨(p.cover v n (pnlmGridCount n p.P)).hi -
          (p.cover v n (pnlmGridCount n p.P)).lo + 1, ?_, ?_⟩
        · rw [if_pos (by omega)]
          omega
        · rw [Cover.entry, if_neg (by omega)]
          exact hlast

/-! ## One pixel -/

theorem skip_iff : (pnlmGridPos i n p.P > v ∨ v ≥ pnlmGridPos i n p.P + p.P) ↔
    ¬p.Covers n v i := by
  unfold Covers
  omega

/-- A loop of the gather that skips what does not cover the pixel. -/
theorem foldl_cover {σ : Type*} (f : σ → Int → σ) (s : σ) (hn : p.P ≤ n) (hv : 0 ≤ v)
    (hvn : v < n) :
    (p.cover v n (pnlmGridCount n p.P)).rounds.foldl
        (fun s i =>
          if pnlmGridPos ((p.cover v n (pnlmGridCount n p.P)).entry i) n p.P > v ∨
              v ≥ pnlmGridPos ((p.cover v n (pnlmGridCount n p.P)).entry i) n p.P + p.P then s
          else f s ((p.cover v n (pnlmGridCount n p.P)).entry i)) s =
      ((Int.range 0 (pnlmGridCount n p.P)).filter (p.Covers n v ·)).foldl f s := by
  rw [← cover_entries hn hv hvn, List.foldl_filter, List.foldl_map]
  simp only [skip_iff, ite_not, decide_eq_true_eq]

/-- The references that cover a pixel, row by row. -/
theorem covering_eq (y x : Int) :
    p.covering y x = ((Int.range 0 p.ny).filter (p.Covers p.height y ·)).flatMap fun iy =>
      ((Int.range 0 p.nx).filter (p.Covers p.width x ·)).map fun ix => (iy, ix) := by
  unfold covering references
  induction Int.range 0 p.ny with
  | nil => rfl
  | cons iy rows ih =>
    rw [List.flatMap_cons, List.filter_append, ih, List.filter_map, List.filter_cons]
    by_cases hrow : p.Covers p.height y iy
    · simp [hrow, Function.comp_def]
    · simp [hrow, Function.comp_def]

theorem mem_covering {y x : Int} {r : Int × Int} :
    r ∈ p.covering y x ↔ (0 ≤ r.1 ∧ r.1 < p.ny) ∧ (0 ≤ r.2 ∧ r.2 < p.nx) ∧
      p.Covers p.height y r.1 ∧ p.Covers p.width x r.2 := by
  rw [covering_eq]
  simp only [List.mem_flatMap, List.mem_filter, List.mem_map, Int.mem_range_iff, decide_eq_true_eq]
  constructor
  · rintro ⟨iy, ⟨hy, hcy⟩, ix, ⟨hx, hcx⟩, rfl⟩
    exact ⟨hy, hx, hcy, hcx⟩
  · rintro ⟨hy, hx, hcy, hcx⟩
    exact ⟨r.1, ⟨hy, hcy⟩, r.2, ⟨hx, hcx⟩, rfl⟩

theorem covering_nodup (y x : Int) : (p.covering y x).Nodup := by
  apply List.Pairwise.filter
  apply List.nodup_flatMap.mpr
  refine ⟨fun iy _ => (range_nodup _ _).map fun a b hab => (Prod.mk.inj hab).2, ?_⟩
  apply (range_nodup _ _).imp
  intro iy iy' hne r hr hr'
  obtain ⟨ix, -, rfl⟩ := List.mem_map.mp hr
  obtain ⟨ix', -, heq⟩ := List.mem_map.mp hr'
  exact hne (Prod.mk.inj heq).1.symm

variable (a : Arith V)

/-- What a reference adds to the weight sum and to the weighted sum of a pixel. -/
def addAt (est : Int → Int → Int → V) (y x : Int) (s : ℚ × V) (r : Int × Int) : ℚ × V :=
  (a.rnd (s.1 + p.weight a y x r),
    a.fma (p.weight a y x r) (est r.1 r.2 ((p.offset y x r).1 * p.P + (p.offset y x r).2)) s.2)

/-- The two loops of the gather are one over the references that cover the pixel. -/
theorem gather_loops (est : Int → Int → Int → V) (s : ℚ × V) {y x : Int} (hy : 0 ≤ y)
    (hyh : y < p.height) (hx : 0 ≤ x) (hxw : x < p.width) :
    (p.cover y p.height p.ny).rounds.foldl
      (fun s ia =>
        if pnlmGridPos ((p.cover y p.height p.ny).entry ia) p.height p.P > y ∨
            y ≥ pnlmGridPos ((p.cover y p.height p.ny).entry ia) p.height p.P + p.P then s
        else
          (p.cover x p.width p.nx).rounds.foldl
            (fun s ib => p.gatherAt a est y x ((p.cover y p.height p.ny).entry ia)
              (pnlmGridPos ((p.cover y p.height p.ny).entry ia) p.height p.P)
              ((p.cover x p.width p.nx).entry ib) s)
            s)
      s = (p.covering y x).foldl (p.addAt a est y x) s := by
  have hcols : ∀ (iy : Int) (s : ℚ × V),
      (p.cover x p.width p.nx).rounds.foldl
        (fun s ib => p.gatherAt a est y x iy (pnlmGridPos iy p.height p.P)
          ((p.cover x p.width p.nx).entry ib) s) s =
        ((Int.range 0 p.nx).filter (p.Covers p.width x ·)).foldl
          (fun s ix => p.addAt a est y x s (iy, ix)) s :=
    fun iy s => foldl_cover (fun s ix => p.addAt a est y x s (iy, ix)) s p.width_le hx hxw
  simp only [hcols]
  have hrows := foldl_cover (p := p)
    (fun s iy => ((Int.range 0 p.nx).filter (p.Covers p.width x ·)).foldl
      (fun s ix => p.addAt a est y x s (iy, ix)) s) s p.height_le hy hyh
  rw [covering_eq, List.foldl_flatMap]
  simp only [List.foldl_map]
  exact hrows

theorem foldl_prod {α β γ : Type*} (f : α → γ → α) (g : β → γ → β) (l : List γ) (u : α) (w : β) :
    l.foldl (fun (s : α × β) r => (f s.1 r, g s.2 r)) (u, w) = (l.foldl f u, l.foldl g w) := by
  induction l generalizing u w with
  | nil => rfl
  | cons r l ih => exact ih _ _

/-- What the gather makes of a row, if the ring has every estimate that it reads. -/
theorem gather_eq {estimate ring : Int → Int → Int → V} {y : Int} (hy : 0 ≤ y)
    (hyh : y < p.height)
    (hring : ∀ iy ix, 0 ≤ iy → iy < p.ny → 0 ≤ ix → ix < p.nx → p.Covers p.height y iy →
      ring (iy % kRing) ix =
        estimate (pnlmGridPos ix p.width p.P) (pnlmGridPos iy p.height p.P)) :
    p.gather a ring y = (Int.range 0 p.width).map (p.tentMean a estimate y) := by
  apply List.map_congr_left
  intro x hx
  obtain ⟨hx, hxw⟩ := Int.mem_range_iff.mp hx
  have hsum : (p.covering y x).foldl
      (p.addAt a (fun iy ix j => ring (iy % kRing) ix j) y x) (0, a.zero) =
        (p.weightSum a y x, (p.covering y x).foldl
          (fun n r => a.fma (p.weight a y x r) (p.value estimate y x r) n) a.zero) := by
    rw [weightSum, ← foldl_prod]
    apply List.foldl_ext
    intro s r hr
    obtain ⟨⟨hy0, hy1⟩, ⟨hx0, hx1⟩, hcy, -⟩ := mem_covering.mp hr
    rw [addAt, hring r.1 r.2 hy0 hy1 hx0 hx1 hcy]
    rfl
  have hloops := p.gather_loops a (fun iy ix j => ring (iy % kRing) ix j) (0, a.zero) hy hyh hx hxw
  rw [hsum] at hloops
  dsimp only
  rw [hloops, tentMean]

/-! ## The ring -/

theorem estimateRow_self {estimate ring : Int → Int → Int → V} {iy ix : Int} (hix : 0 ≤ ix)
    (hlt : ix < p.nx) : p.estimateRow estimate iy ring (iy % kRing) ix =
      estimate (pnlmGridPos ix p.width p.P) (pnlmGridPos iy p.height p.P) := by
  have hnx : 0 ≤ p.nx := by omega
  have hrow : ∀ ix, 0 ≤ ix → ix < p.nx → p.estimateRow estimate iy ring (iy % kRing) ix =
      estimate (pnlmGridPos ix p.width p.P) (pnlmGridPos iy p.height p.P) := by
    refine foldl_range_induct (fun k (ring : Int → Int → Int → V) => ∀ ix, 0 ≤ ix → ix < k →
      ring (iy % kRing) ix = estimate (pnlmGridPos ix p.width p.P) (pnlmGridPos iy p.height p.P))
      _ hnx (fun ix hix hlt => by omega) ?_
    intro k ring _ _ hbelow ix hix hlt
    rw [Function.update_self]
    by_cases heq : ix = k
    · rw [heq, Function.update_self]
    · rw [Function.update_of_ne heq]
      exact hbelow ix hix (by omega)
  exact hrow ix hix hlt

/-- A grid row leaves the others of the ring alone. -/
theorem estimateRow_of_ne {estimate ring : Int → Int → Int → V} {iy j : Int}
    (hne : j ≠ iy % kRing) : p.estimateRow estimate iy ring j = ring j := by
  unfold estimateRow
  induction Int.range 0 p.nx generalizing ring with
  | nil => rfl
  | cons ix ixs ih => rw [List.foldl_cons, ih, Function.update_of_ne hne]

/-- The first output row that grid row `k` does not complete. -/
def bound (p : Plane) (k : Int) : Int :=
  if k < p.ny then pnlmGridPos k p.height p.P else p.height

/-- What covers a row that is gathered with grid row `k` is of the last four grid rows. -/
theorem row_window {k y : Int} (hi : 0 ≤ i) (hlt : i < p.ny) (hk : k < p.ny)
    (hlo : p.bound k ≤ y) (hhi : y < p.bound (k + 1)) (hcovers : p.Covers p.height y i) :
    k - 4 < i ∧ i ≤ k := by
  have hn : p.P ≤ p.height := p.height_le
  have hP : p.P = 2 * p.q := rfl
  obtain ⟨hpos, hend⟩ := hcovers
  have hcase_i := gridPos_cases hn hlt
  have hcase_k := gridPos_cases hn hk
  have hcase_next := gridPos_cases (p := p) (n := p.height) (i := k + 1) hn
  unfold bound at hlo hhi
  unfold ny at *
  generalize pnlmGridCount p.height p.P = count at *
  generalize pnlmGridPos i p.height p.P = pos at *
  generalize pnlmGridPos k p.height p.P = pos_k at *
  generalize pnlmGridPos (k + 1) p.height p.P = pos_next at *
  rcases p.q_cases with hq | hq | hq <;> simp only [hq] at * <;> split_ifs at * <;> omega

theorem bound_le {k : Int} (hk : 0 ≤ k) (hlt : k < p.ny) :
    0 ≤ p.bound k ∧ p.bound k ≤ p.bound (k + 1) ∧ p.bound (k + 1) ≤ p.height := by
  have hn : p.P ≤ p.height := p.height_le
  have hP : p.P = 2 * p.q := rfl
  have hcase_k := gridPos_cases hn hlt
  have hcase_next := gridPos_cases (p := p) (n := p.height) (i := k + 1) hn
  unfold bound
  unfold ny at *
  generalize pnlmGridCount p.height p.P = count at *
  generalize pnlmGridPos k p.height p.P = pos_k at *
  generalize pnlmGridPos (k + 1) p.height p.P = pos_next at *
  rcases p.q_cases with hq | hq | hq <;> simp only [hq] at * <;> split_ifs at * <;> omega

/-- What holds after the grid rows before `k`. -/
structure Streamed (p : Plane) (a : Arith V) (estimate : Int → Int → Int → V) (k : Int)
    (s : State V) : Prop where
  ring : ∀ iy ix, 0 ≤ iy → k - 4 ≤ iy → iy < k → 0 ≤ ix → ix < p.nx →
    s.ring (iy % kRing) ix = estimate (pnlmGridPos ix p.width p.P) (pnlmGridPos iy p.height p.P)
  nextRow : s.nextRow = p.bound k
  out : s.out = (Int.range 0 (p.bound k)).map fun y =>
    (y, (Int.range 0 p.width).map (p.tentMean a estimate y))

theorem Streamed.runRow {estimate : Int → Int → Int → V} {k : Int} {s : State V}
    (h : Streamed p a estimate k s) (hk : 0 ≤ k) (hlt : k < p.ny) :
    Streamed p a estimate (k + 1) (p.runRow a estimate s k) := by
  obtain ⟨hzero, hle, hheight⟩ := p.bound_le hk hlt
  have hbound : (if k + 1 < p.ny then pnlmGridPos (k + 1) p.height p.P else p.height) =
      p.bound (k + 1) := rfl
  have hring : ∀ iy ix, 0 ≤ iy → k - 4 < iy → iy ≤ k → 0 ≤ ix → ix < p.nx →
      p.estimateRow estimate k s.ring (iy % kRing) ix =
        estimate (pnlmGridPos ix p.width p.P) (pnlmGridPos iy p.height p.P) := by
    intro iy ix hiy hlo hhi hix hixlt
    by_cases heq : iy = k
    · rw [heq]
      exact estimateRow_self hix hixlt
    · have hne : iy % kRing ≠ k % kRing := by
        unfold kRing
        omega
      rw [estimateRow_of_ne hne]
      exact h.ring iy ix hiy (by omega) (by omega) hix hixlt
  refine ⟨?_, ?_, ?_⟩
  · intro iy ix hiy hlo hhi hix hixlt
    exact hring iy ix hiy (by omega) (by omega) hix hixlt
  · rw [Plane.runRow, h.nextRow, hbound]
    exact max_eq_right hle
  · rw [Plane.runRow, h.nextRow, hbound]
    dsimp only
    rw [h.out, range_append hzero hle, List.map_append]
    congr 1
    apply List.map_congr_left
    intro y hy
    obtain ⟨hlo, hhi⟩ := Int.mem_range_iff.mp hy
    rw [p.gather_eq a (by omega) (by omega)]
    intro iy ix hiy hiylt hix hixlt hcovers
    obtain ⟨hw, hw'⟩ := row_window hiy hiylt hlt hlo hhi hcovers
    exact hring iy ix hiy hw hw' hix hixlt

/-! ## The weights -/

/-- Every pixel of an axis is covered. -/
theorem exists_covers (hn : p.P ≤ n) (hv : 0 ≤ v) (hvn : v < n) :
    ∃ i, 0 ≤ i ∧ i < pnlmGridCount n p.P ∧ p.Covers n v i := by
  have hcount := gridCount_pos hn
  have hq : 0 < p.q := by
    rcases p.q_cases with hq | hq | hq <;> omega
  have hdiv : 0 ≤ v / p.q := Int.ediv_nonneg hv hq.le
  refine ⟨min (pnlmGridCount n p.P - 1) (v / p.q), by omega, by omega, ?_⟩
  have hcases := gridPos_cases hn (i := min (pnlmGridCount n p.P - 1) (v / p.q)) (by omega)
  have hP : p.P = 2 * p.q := rfl
  unfold Covers
  generalize pnlmGridCount n p.P = count at *
  generalize hpos : pnlmGridPos (min (count - 1) (v / p.q)) n p.P = pos at *
  rcases p.q_cases with hq | hq | hq <;> simp only [hq] at * <;> omega

/-- What is at least a fraction that a `float` has stays so. -/
theorem rnd_ge (r : Rounding) {m k : ℕ} {c z : ℚ} (hc : c = m / 2 ^ k) (hm : m ≤ 2 ^ 24)
    (hk : k ≤ 126) (h : c ≤ z) : c ≤ r.rnd z := by
  rw [hc, ← r.dyadic m k hm hk, ← hc]
  exact r.mono h

/-- Inside the patch the tent is at least an eighth. -/
theorem pnlmTent_ge {r : Rounding} (hi : 0 ≤ i) (hlt : i < p.P) : 1 / 8 ≤ r.pnlmTent i p.P := by
  have hP : p.P = 2 * p.q := rfl
  have habs : |2 * i + 1 - p.P| ≤ p.P - 1 := by
    rw [abs_le]
    omega
  have hpos : (0 : ℚ) < (p.P : ℚ) := by
    rcases p.q_cases with hq | hq | hq <;> rw [hP, hq] <;> norm_num
  have hbound : (8 : ℚ) * (p.P - 1) ≤ 7 * p.P := by
    rcases p.q_cases with hq | hq | hq <;> rw [hP, hq] <;> norm_num
  have habs' : |((2 * i + 1 - p.P : Int) : ℚ)| ≤ (p.P : ℚ) - 1 := by exact_mod_cast habs
  have hratio : |((2 * i + 1 - p.P : Int) : ℚ)| / p.P ≤ 7 / 8 := by
    rw [div_le_iff₀ hpos]
    linarith
  have hround : r.rnd (|((2 * i + 1 - p.P : Int) : ℚ)| / p.P) ≤ 7 / 8 := by
    have hseven := r.dyadic 7 3 (by norm_num) (by norm_num)
    norm_num at hseven
    rw [← hseven]
    exact r.mono hratio
  exact rnd_ge r (m := 1) (k := 3) (by norm_num) (by norm_num) (by norm_num) (by linarith)

theorem weight_ge {y x : Int} {s : Int × Int} (hs : s ∈ p.covering y x) :
    1 / 64 ≤ p.weight a y x s := by
  obtain ⟨-, -, ⟨hy, hy'⟩, hx, hx'⟩ := mem_covering.mp hs
  have hty : 1 / 8 ≤ a.pnlmTent (p.offset y x s).1 p.P :=
    pnlmTent_ge (by rw [offset]; omega) (by rw [offset]; omega)
  have htx : 1 / 8 ≤ a.pnlmTent (p.offset y x s).2 p.P :=
    pnlmTent_ge (by rw [offset]; omega) (by rw [offset]; omega)
  exact rnd_ge a.toRounding (m := 1) (k := 6) (by norm_num) (by norm_num) (by norm_num)
    (by nlinarith only [hty, htx])

theorem sum_ge {l : List (Int × Int)} {w : Int × Int → ℚ} {d : ℚ} (hd : 0 ≤ d) (hl : l ≠ [])
    (hw : ∀ s ∈ l, 1 / 64 ≤ w s) : 1 / 64 ≤ l.foldl (fun d s => a.rnd (d + w s)) d := by
  induction l generalizing d with
  | nil => exact absurd rfl hl
  | cons s l ih =>
    have hs := hw s List.mem_cons_self
    have hge : 1 / 64 ≤ a.rnd (d + w s) :=
      rnd_ge a.toRounding (m := 1) (k := 6) (by norm_num) (by norm_num) (by norm_num) (by linarith)
    rw [List.foldl_cons]
    cases l with
    | nil => exact hge
    | cons s' l =>
      exact ih (by linarith) (List.cons_ne_nil _ _) fun s hs => hw s (List.mem_cons_of_mem _ hs)

theorem weightSum_pos {y x : Int} (hy : 0 ≤ y) (hyh : y < p.height) (hx : 0 ≤ x)
    (hxw : x < p.width) : 0 < p.weightSum a y x := by
  obtain ⟨iy, hiy, hiyn, hcy⟩ := exists_covers p.height_le hy hyh
  obtain ⟨ix, hix, hixn, hcx⟩ := exists_covers p.width_le hx hxw
  have hmem : (iy, ix) ∈ p.covering y x :=
    mem_covering.mpr ⟨⟨hiy, hiyn⟩, ⟨hix, hixn⟩, hcy, hcx⟩
  have hne : p.covering y x ≠ [] := List.ne_nil_of_mem hmem
  have hge : 1 / 64 ≤ p.weightSum a y x :=
    sum_ge a (w := p.weight a y x) (le_refl (0 : ℚ)) hne fun s hs => weight_ge a hs
  have hpos : (0 : ℚ) < 1 / 64 := by norm_num
  exact lt_of_lt_of_le hpos hge

/-! ## The whole plane -/

/-- Every output row is gathered once, and every pixel of it is the tent-weighted mean of the
estimates of the references that cover it. -/
theorem run_eq (p : Plane) (a : Arith V) (estimate ring : Int → Int → Int → V) :
    p.run a estimate ring = (Int.range 0 p.height).map (fun y =>
        (y, (Int.range 0 p.width).map (p.tentMean a estimate y))) ∧
      ∀ y x, 0 ≤ y → y < p.height → 0 ≤ x → x < p.width →
        (p.covering y x).Nodup ∧
          (∀ iy ix, (iy, ix) ∈ p.covering y x ↔ (0 ≤ iy ∧ iy < p.ny) ∧ (0 ≤ ix ∧ ix < p.nx) ∧
            p.Covers p.height y iy ∧ p.Covers p.width x ix) ∧
          (p.covering y x).Sublist p.references ∧
          (∀ r ∈ p.covering y x, (0 ≤ (p.offset y x r).1 ∧ (p.offset y x r).1 < p.P) ∧
            0 ≤ (p.offset y x r).2 ∧ (p.offset y x r).2 < p.P) ∧
          0 < p.weightSum a y x := by
  have hny : 0 < p.ny := gridCount_pos p.height_le
  have hstart : Streamed p a estimate 0 ⟨ring, 0, []⟩ := by
    have hzero : p.bound 0 = 0 := by
      rw [bound, if_pos hny]
      exact gridPos_zero p.height_le
    refine ⟨fun iy ix hiy _ hlt => absurd hiy (by omega), hzero.symm, ?_⟩
    rw [hzero, range_empty (le_refl 0), List.map_nil]
  have hrun := foldl_range_induct (Streamed p a estimate) (p.runRow a estimate) hny.le hstart
    fun k s hk hlt h => h.runRow a hk hlt
  have hbound : p.bound p.ny = p.height := if_neg (lt_irrefl _)
  refine ⟨?_, fun y x hy hyh hx hxw => ⟨covering_nodup y x, fun iy ix => mem_covering,
    List.filter_sublist, fun r hr => ?_, weightSum_pos a hy hyh hx hxw⟩⟩
  · rw [run, hrun.out, hbound]
  · obtain ⟨-, -, ⟨hy, hy'⟩, hx, hx'⟩ := mem_covering.mp hr
    rw [offset]
    dsimp only
    omega

end Plane

end NssFactory.Cpu.Pnlm
