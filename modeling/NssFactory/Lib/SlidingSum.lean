import NssFactory.Lib.Loops
import NssFactory.Lib.Ring

/-!
# Sums over a sliding window, kept in a ring

Centers `0, 1, …, last` run in ascending order. Center `c` has a term for every target
within `radius` of it, so a target `t` is the sum of the terms of the centers
`max 0 (t - radius) … min (t + radius) last`, and at any time the targets whose sums are
begun and not finished lie in a window of `2 * radius + 1` targets. A ring of that many
cells therefore holds all of them: target `t` in cell `t % (2 * radius + 1)`.

* `putRange` is a loop that changes the cells of consecutive targets; `putRange_cell` says
  what each cell of the window holds then.
* `Sliding.sumBelow t e` is the sum of `t` after the centers below `e`; `Sliding.total t`
  the whole one.
* `Sliding.Open cells next e`: after the centers below `e` the ring holds the sum so far of
  every target from `next` on that a center can reach.
* `open_zero`, `Open.addCenter` and `Open.finish` are what a program does with the ring;
  `Open.total` is what it reads when it finishes a target.

The addition is any function: nothing here assumes that it is associative.
-/

namespace NssFactory

/-- `change t` to the cell of each target `lo … hi`, in a ring of `k` cells. -/
def putRange {A : Type*} (k : Int) (change : Int → A → A) (lo hi : Int) (cells : Int → A) :
    Int → A :=
  (Int.range lo (hi + 1)).foldl
    (fun cells t => Function.update cells (t % k) (change t (cells (t % k)))) cells

theorem putRange_cell {A : Type*} {k lo hi : Int} (change : Int → A → A) (cells : Int → A)
    (t : Int) (ht : t - lo < k) (ht' : hi - t < k) (hlo : lo ≤ hi + 1) :
    putRange k change lo hi cells (t % k) =
      if lo ≤ t ∧ t ≤ hi then change t (cells (t % k)) else cells (t % k) := by
  -- at round `x` exactly the targets before `x` have been changed
  have key := Loops.foldl_range_induct
    (fun x (cs : Int → A) => cs (t % k) =
      if lo ≤ t ∧ t < x then change t (cells (t % k)) else cells (t % k))
    (fun cells t => Function.update cells (t % k) (change t (cells (t % k))))
    hlo (s := cells) (by rw [if_neg (by omega)]) ?_
  · simp only [putRange, key]
    congr 1
    simp only [eq_iff_iff]
    omega
  · intro x cs hx hxn ih
    by_cases hxt : t = x
    · subst hxt
      rw [Function.update_self, ih, if_neg (by omega), if_pos (by omega)]
    · rw [update_cell_of_ne cs _ (by omega) (by omega) hxt, ih]
      congr 1
      simp only [eq_iff_iff]
      omega

/-- The sums of a clip: `term c t` is what center `c` adds to target `t`. -/
structure Sliding (A B : Type*) where
  zero : A
  add : A → B → A
  term : Int → Int → B
  radius : Int
  last : Int

namespace Sliding

variable {A B : Type*} (S : Sliding A B)

/-- The number of cells of the ring. -/
def ring : Int := 2 * S.radius + 1

/-- The sum of target `t` after the centers below `e`, in ascending order. -/
def sumBelow (t e : Int) : A :=
  (Int.range (max 0 (t - S.radius)) e).foldl (fun a c => S.add a (S.term c t)) S.zero

/-- The whole sum of target `t`. -/
def total (t : Int) : A := S.sumBelow t (min (t + S.radius) S.last + 1)

/-- The additions of center `c` to the cells of the targets `lo … hi`. -/
def addCenter (lo hi c : Int) (cells : Int → A) : Int → A :=
  putRange S.ring (fun t a => S.add a (S.term c t)) lo hi cells

/-- The ring after the centers below `e`, when the targets before `next` are finished. -/
def Open (cells : Int → A) (next e : Int) : Prop :=
  ∀ t, next ≤ t → t ≤ next + 2 * S.radius → t ≤ S.last →
    cells (t % S.ring) = S.sumBelow t e

theorem sumBelow_zero {t e : Int} (h : e ≤ max 0 (t - S.radius)) : S.sumBelow t e = S.zero := by
  simp [sumBelow, Loops.range_empty h]

theorem sumBelow_succ {t e : Int} (h : max 0 (t - S.radius) ≤ e) :
    S.sumBelow t (e + 1) = S.add (S.sumBelow t e) (S.term e t) := by
  simp [sumBelow, Loops.range_snoc h]

/-- Before the first center that reaches it every target is zero. -/
theorem open_zero {cells : Int → A} {next e : Int}
    (hz : ∀ t, next ≤ t → t ≤ next + 2 * S.radius → t ≤ S.last → cells (t % S.ring) = S.zero)
    (he : e ≤ max 0 (next - S.radius)) : S.Open cells next e := by
  intro t h1 h2 h3
  rw [hz t h1 h2 h3, S.sumBelow_zero (by omega)]

variable {S}
variable {cells : Int → A} {next e : Int}

/-- The step of a center: `e` adds to every target it reaches, none of them finished. -/
theorem Open.addCenter (h : S.Open cells next e) (hr : 0 ≤ S.radius) (he : 0 ≤ e)
    (hne : e ≤ next + S.radius) (hen : next ≤ e + S.radius + 1) (hnl : next ≤ S.last + 1) :
    S.Open (S.addCenter (max next (e - S.radius)) (min (e + S.radius) S.last) e cells)
      next (e + 1) := by
  have hring : S.ring = 2 * S.radius + 1 := rfl
  intro t h1 h2 h3
  rw [Sliding.addCenter, putRange_cell _ cells t (by omega) (by omega) (by omega), h t h1 h2 h3]
  split
  · rw [S.sumBelow_succ (by omega)]
  · rw [S.sumBelow_zero (by omega), S.sumBelow_zero (by omega)]

/-- When the last center of `next` has run, its cell holds its whole sum. -/
theorem Open.total (h : S.Open cells next e) (hr : 0 ≤ S.radius) (hl : next ≤ S.last)
    (he : min (next + S.radius) S.last + 1 = e) : cells (next % S.ring) = S.total next := by
  rw [h next (Int.le_refl _) (by omega) hl, Sliding.total, he]

/-- A finished target gives its cell, zeroed, to the target one ring further on. -/
theorem Open.finish (h : S.Open cells next e)
    (he : e ≤ next + S.radius + 1) :
    S.Open (Function.update cells (next % S.ring) S.zero) (next + 1) e := by
  have hring : S.ring = 2 * S.radius + 1 := rfl
  intro t h1 h2 h3
  by_cases ht : t ≤ next + 2 * S.radius
  · rw [update_cell_of_ne cells _ (by omega) (by omega) (by omega), h t (by omega) ht h3]
  · have hc : t % S.ring = next % S.ring := by
      have : t = next + S.ring := by omega
      rw [this, Int.add_emod_right]
    rw [hc, Function.update_self, S.sumBelow_zero (by omega)]

end Sliding

end NssFactory
