import Mathlib.Algebra.BigOperators.Intervals
import Mathlib.Algebra.Ring.Basic
import Mathlib.Tactic.Ring
import Mathlib.Tactic.LinearCombination

/-!
# The Haar transform of a column

The orthonormal Haar transform of `2 ^ k` values: their pairwise sums are transformed again and
come first, their pairwise differences fill the second half. `inverse_transform` needs only
that the scale `c` satisfies `2 c ^ 2 = 1`.
-/

namespace NssFactory.Haar

variable {α : Type*} [CommRing α] (c : α)

def sums (f : Nat → α) (i : Nat) : α := (f (2 * i) + f (2 * i + 1)) * c

def differences (f : Nat → α) (i : Nat) : α := (f (2 * i) - f (2 * i + 1)) * c

def transform : Nat → (Nat → α) → Nat → α
  | 0, f => f
  | k + 1, f => fun i => if i < 2 ^ k then transform k (sums c f) i else differences c f (i - 2 ^ k)

def inverse : Nat → (Nat → α) → Nat → α
  | 0, f => f
  | k + 1, f => fun i =>
    if i % 2 = 0 then (inverse k f (i / 2) + f (2 ^ k + i / 2)) * c
    else (inverse k f (i / 2) - f (2 ^ k + i / 2)) * c

variable {c} {f g : Nat → α} {k i : Nat}

theorem transform_low (h : i < 2 ^ k) : transform c (k + 1) f i = transform c k (sums c f) i := if_pos h

theorem transform_high (h : 2 ^ k ≤ i) : transform c (k + 1) f i = differences c f (i - 2 ^ k) :=
  if_neg (by omega)

theorem inverse_even (h : i % 2 = 0) :
    inverse c (k + 1) f i = (inverse c k f (i / 2) + f (2 ^ k + i / 2)) * c := if_pos h

theorem inverse_odd (h : i % 2 ≠ 0) :
    inverse c (k + 1) f i = (inverse c k f (i / 2) - f (2 ^ k + i / 2)) * c := if_neg h

theorem transform_congr (h : ∀ i < 2 ^ k, f i = g i) (hi : i < 2 ^ k) :
    transform c k f i = transform c k g i := by
  induction k generalizing f g i with
  | zero => exact h i hi
  | succ k ih =>
    have hpow : 2 ^ (k + 1) = 2 * 2 ^ k := by ring
    by_cases hlow : i < 2 ^ k
    · rw [transform_low hlow, transform_low hlow]
      refine ih (fun j hj => ?_) hlow
      rw [sums, sums, h (2 * j) (by omega), h (2 * j + 1) (by omega)]
    · rw [transform_high (by omega), transform_high (by omega), differences, differences, h _ (by omega), h _ (by omega)]

theorem inverse_congr (h : ∀ i < 2 ^ k, f i = g i) (hi : i < 2 ^ k) : inverse c k f i = inverse c k g i := by
  induction k generalizing i with
  | zero => exact h i hi
  | succ k ih =>
    have hpow : 2 ^ (k + 1) = 2 * 2 ^ k := by ring
    simp only [inverse]
    rw [ih (fun j hj => h j (by omega)) (show i / 2 < 2 ^ k by omega), h (2 ^ k + i / 2) (by omega)]

/-- The inverse takes the transform back. -/
theorem inverse_transform (hc : 2 * c ^ 2 = 1) (hi : i < 2 ^ k) : inverse c k (transform c k f) i = f i := by
  induction k generalizing f i with
  | zero => rfl
  | succ k ih =>
    have hpow : 2 ^ (k + 1) = 2 * 2 ^ k := by ring
    have hhalf : i / 2 < 2 ^ k := by omega
    -- below the middle the transform is that of the sums, above it the differences
    have hlow : inverse c k (transform c (k + 1) f) (i / 2) = sums c f (i / 2) := by
      rw [← ih (f := sums c f) hhalf]
      refine inverse_congr (fun j hj => ?_) hhalf
      exact transform_low hj
    have hhigh : transform c (k + 1) f (2 ^ k + i / 2) = differences c f (i / 2) := by
      rw [transform_high (by omega), Nat.add_sub_cancel_left]
    by_cases heven : i % 2 = 0
    · rw [inverse_even heven, hlow, hhigh, sums, differences, show 2 * (i / 2) = i by omega]
      linear_combination (f i) * hc
    · rw [inverse_odd heven, hlow, hhigh, sums, differences, show 2 * (i / 2) + 1 = i by omega]
      linear_combination (f i) * hc

/-! ## Level by level -/

variable (c) in
/-- One level in place: the front of `2 * h` values becomes sums and differences. -/
def forwardStep (h : Nat) (f : Nat → α) (i : Nat) : α :=
  if i < h then sums c f i else if i < 2 * h then differences c f (i - h) else f i

variable (c) in
def backwardStep (h : Nat) (f : Nat → α) (i : Nat) : α :=
  if i < 2 * h then
    if i % 2 = 0 then (f (i / 2) + f (h + i / 2)) * c else (f (i / 2) - f (h + i / 2)) * c
  else f i

variable (c) in
def forwardLevels : Nat → (Nat → α) → Nat → α
  | 0, f => f
  | k + 1, f => forwardLevels k (forwardStep c (2 ^ k) f)

variable (c) in
def backwardLevels : Nat → (Nat → α) → Nat → α
  | 0, f => f
  | k + 1, f => backwardStep c (2 ^ k) (backwardLevels k f)

theorem forwardLevels_apply :
    forwardLevels c k f i = if i < 2 ^ k then transform c k f i else f i := by
  induction k generalizing f with
  | zero => exact (ite_self _).symm
  | succ k ih =>
    have hpow : 2 ^ (k + 1) = 2 * 2 ^ k := by ring
    rw [forwardLevels, ih]
    by_cases hlow : i < 2 ^ k
    · rw [if_pos hlow, if_pos (by omega), transform_low hlow]
      exact transform_congr (fun j hj => if_pos hj) hlow
    · rw [if_neg hlow, forwardStep, if_neg hlow, ← hpow]
      by_cases hhigh : i < 2 ^ (k + 1)
      · rw [if_pos hhigh, if_pos hhigh, transform_high (by omega)]
      · rw [if_neg hhigh, if_neg hhigh]

theorem backwardLevels_apply :
    backwardLevels c k f i = if i < 2 ^ k then inverse c k f i else f i := by
  induction k generalizing i with
  | zero => exact (ite_self _).symm
  | succ k ih =>
    have hpow : 2 ^ (k + 1) = 2 * 2 ^ k := by ring
    rw [backwardLevels, backwardStep, ← hpow]
    by_cases hi : i < 2 ^ (k + 1)
    · have hlow : i / 2 < 2 ^ k := by omega
      have hhigh : ¬2 ^ k + i / 2 < 2 ^ k := by omega
      rw [if_pos hi, if_pos hi, ih, ih, if_pos hlow, if_neg hhigh]
      rfl
    · rw [if_neg hi, if_neg hi, ih, if_neg (by omega)]

section Loops

variable {σ : Type*}

/-- `for (len = n; len >= 2; len /= 2)`, with no more than `fuel` rounds. -/
def halving (body : Nat → σ → σ) : (fuel len : Nat) → σ → σ
  | 0, _, s => s
  | fuel + 1, len, s => if 2 ≤ len then halving body fuel (len / 2) (body len s) else s

/-- `for (; len <= n; len *= 2)`, with no more than `fuel` rounds. -/
def doubling (body : Nat → σ → σ) (n : Nat) : (fuel len : Nat) → σ → σ
  | 0, _, s => s
  | fuel + 1, len, s => if len ≤ n then doubling body n fuel (len * 2) (body len s) else s

variable {body : Nat → σ → σ} (view : σ → Nat → α) {fuel t : Nat} {s : σ}

theorem halving_view
    (hbody : ∀ h s, 1 ≤ h → view (body (2 * h) s) = forwardStep c h (view s)) (hfuel : k ≤ fuel) :
    view (halving body fuel (2 ^ k) s) = forwardLevels c k (view s) := by
  induction k generalizing fuel s with
  | zero =>
    cases fuel with
    | zero => rfl
    | succ fuel => rw [halving, if_neg (by norm_num)]; rfl
  | succ k ih =>
    have hpow : 2 ^ (k + 1) = 2 * 2 ^ k := by ring
    cases fuel with
    | zero => omega
    | succ fuel =>
      have hone : 1 ≤ 2 ^ k := Nat.one_le_two_pow
      rw [halving, if_pos (by omega), hpow, Nat.mul_div_cancel_left _ (by norm_num),
        ih (by omega), hbody _ _ hone, forwardLevels]

theorem doubling_view
    (hbody : ∀ h s, 1 ≤ h → view (body (2 * h) s) = backwardStep c h (view s))
    (hs : view s = backwardLevels c t f) (ht : t ≤ k) (hfuel : k ≤ t + fuel) :
    view (doubling body (2 ^ k) fuel (2 * 2 ^ t) s) = backwardLevels c k f := by
  induction fuel generalizing t s with
  | zero =>
    have htk : t = k := by omega
    rw [doubling, hs, htk]
  | succ fuel ih =>
    have hpow : 2 ^ (t + 1) = 2 * 2 ^ t := by ring
    rw [doubling, ← hpow]
    by_cases htk : t < k
    · rw [if_pos (Nat.pow_le_pow_right (by norm_num) htk), Nat.mul_comm]
      refine ih ?_ htk (by omega)
      rw [hpow, hbody _ _ Nat.one_le_two_pow, hs, backwardLevels]
    · have hkt : t = k := by omega
      have hlt : 2 ^ k < 2 ^ (t + 1) := Nat.pow_lt_pow_right (by norm_num) (by omega)
      rw [if_neg (by omega), hs, hkt]

end Loops

/-! ## Products of columns -/

open Finset

theorem sum_pairs (f : Nat → α) (n : Nat) :
    ∑ i ∈ range (n + n), f i = ∑ i ∈ range n, (f (2 * i) + f (2 * i + 1)) := by
  induction n with
  | zero => rfl
  | succ n ih =>
    rw [show n + 1 + (n + 1) = n + n + 1 + 1 by omega, sum_range_succ, sum_range_succ, ih, sum_range_succ,
      two_mul, add_assoc]

/-- The inverse keeps them. -/
theorem inverse_dot (hc : 2 * c ^ 2 = 1) :
    ∑ i ∈ range (2 ^ k), inverse c k f i * inverse c k g i = ∑ i ∈ range (2 ^ k), f i * g i := by
  induction k with
  | zero => rfl
  | succ k ih =>
    rw [show 2 ^ (k + 1) = 2 ^ k + 2 ^ k by ring, sum_pairs, sum_range_add, ← ih, ← sum_add_distrib]
    refine sum_congr rfl fun i _ => ?_
    rw [inverse_even (by omega), inverse_even (by omega), inverse_odd (by omega), inverse_odd (by omega),
      show 2 * i / 2 = i by omega, show (2 * i + 1) / 2 = i by omega]
    linear_combination (inverse c k f i * inverse c k g i + f (2 ^ k + i) * g (2 ^ k + i)) * hc

theorem transform_dot (hc : 2 * c ^ 2 = 1) :
    ∑ i ∈ range (2 ^ k), transform c k f i * transform c k g i = ∑ i ∈ range (2 ^ k), f i * g i := by
  rw [← inverse_dot hc]
  refine sum_congr rfl fun i hi => ?_
  rw [inverse_transform hc (mem_range.mp hi), inverse_transform hc (mem_range.mp hi)]

end NssFactory.Haar
