import Mathlib.Order.Bounds.Basic
import Mathlib.Order.BoundedOrder.Basic
import Mathlib.Order.Lattice
import Mathlib.Data.Nat.Basic
import Mathlib.Algebra.Order.Ring.Nat

/-!
# Minima over squares of a plane

A cell of level `l + 1` stands over four cells of level `l`, a cell of level `0` is a leaf.
`least` is the minimum under a cell, `descend` the leaf that the walk down reaches which goes,
at every level, to the first of the four cells that holds the minimum.
-/

namespace NssFactory.MinTree

variable {W : Type*} [LinearOrder W]

/-- The smaller of the four values over `(2 r, 2 c)`. -/
def square (value : Nat → Nat → W) (r c : Nat) : W :=
  min (min (value (2 * r) (2 * c)) (value (2 * r + 1) (2 * c)))
    (min (value (2 * r) (2 * c + 1)) (value (2 * r + 1) (2 * c + 1)))

def least (leaf : Nat → Nat → W) : Nat → Nat → Nat → W
  | 0 => leaf
  | l + 1 => square (least leaf l)

/-- The first of four cells that holds `v`. -/
def first (value : Nat → Nat → W) (v : W) (r c : Nat) : Nat × Nat :=
  if value (2 * r) (2 * c) = v then (2 * r, 2 * c)
  else if value (2 * r + 1) (2 * c) = v then (2 * r + 1, 2 * c)
  else if value (2 * r) (2 * c + 1) = v then (2 * r, 2 * c + 1)
  else (2 * r + 1, 2 * c + 1)

/-- The leaf under a cell of level `l` where the first minima lead. -/
def descend (leaf : Nat → Nat → W) : Nat → Nat × Nat → Nat × Nat
  | 0, p => p
  | l + 1, p => descend leaf l (first (least leaf l) (least leaf (l + 1) p.1 p.2) p.1 p.2)

/-- The leaf lies under the cell. -/
def Under (l r c i j : Nat) : Prop := i / 2 ^ l = r ∧ j / 2 ^ l = c

variable {leaf leaf' : Nat → Nat → W} {value : Nat → Nat → W} {a v : W} {l r c i j : Nat}

theorem under_zero : Under 0 r c i j ↔ i = r ∧ j = c := by
  simp [Under]

/-- What lies under a cell lies under one of its four. -/
theorem under_succ : Under (l + 1) r c i j ↔ ∃ s < 2, ∃ t < 2, Under l (2 * r + s) (2 * c + t) i j := by
  have half : ∀ x y : Nat, x / 2 ^ (l + 1) = y ↔ ∃ s < 2, x / 2 ^ l = 2 * y + s := by
    intro x y
    rw [pow_succ, ← Nat.div_div_eq_div_mul]
    constructor
    · intro h
      exact ⟨x / 2 ^ l % 2, Nat.mod_lt _ (by decide), by omega⟩
    · rintro ⟨s, hs, h⟩
      omega
  simp only [Under, half]
  constructor
  · rintro ⟨⟨s, hs, hi⟩, t, ht, hj⟩
    exact ⟨s, hs, t, ht, hi, hj⟩
  · rintro ⟨s, hs, t, ht, hi, hj⟩
    exact ⟨⟨s, hs, hi⟩, t, ht, hj⟩

theorem le_square_iff : a ≤ square value r c ↔ ∀ s < 2, ∀ t < 2, a ≤ value (2 * r + s) (2 * c + t) := by
  simp only [square, le_min_iff]
  constructor
  · rintro ⟨⟨h₀, h₁⟩, h₂, h₃⟩ s hs t ht
    obtain rfl | rfl : s = 0 ∨ s = 1 := by omega
    · obtain rfl | rfl : t = 0 ∨ t = 1 := by omega
      · exact h₀
      · exact h₂
    · obtain rfl | rfl : t = 0 ∨ t = 1 := by omega
      · exact h₁
      · exact h₃
  · intro h
    exact ⟨⟨h 0 (by decide) 0 (by decide), h 1 (by decide) 0 (by decide)⟩,
      h 0 (by decide) 1 (by decide), h 1 (by decide) 1 (by decide)⟩

theorem le_least_iff : a ≤ least leaf l r c ↔ ∀ i j, Under l r c i j → a ≤ leaf i j := by
  induction l generalizing r c with
  | zero =>
    simp only [least, under_zero]
    constructor
    · rintro h i j ⟨rfl, rfl⟩
      exact h
    · intro h
      exact h r c ⟨rfl, rfl⟩
  | succ l ih =>
    simp only [least, le_square_iff, ih, under_succ]
    constructor
    · rintro h i j ⟨s, hs, t, ht, hunder⟩
      exact h s hs t ht i j hunder
    · intro h s hs t ht i j hunder
      exact h i j ⟨s, hs, t, ht, hunder⟩

/-- The leaves under a cell, counted from its first. -/
theorem le_least_block : a ≤ least leaf l r c ↔
    ∀ s < 2 ^ l, ∀ t < 2 ^ l, a ≤ leaf (2 ^ l * r + s) (2 ^ l * c + t) := by
  have hpos : 0 < 2 ^ l := Nat.two_pow_pos l
  have hunder : ∀ {x s : Nat}, s < 2 ^ l → (2 ^ l * x + s) / 2 ^ l = x := by
    intro x s hs
    rw [Nat.mul_add_div hpos, Nat.div_eq_of_lt hs, Nat.add_zero]
  rw [le_least_iff]
  constructor
  · intro h s hs t ht
    exact h _ _ ⟨hunder hs, hunder ht⟩
  · rintro h i j ⟨rfl, rfl⟩
    have hij := h (i % 2 ^ l) (Nat.mod_lt i hpos) (j % 2 ^ l) (Nat.mod_lt j hpos)
    rwa [Nat.div_add_mod, Nat.div_add_mod] at hij

/-- The minimum under a cell depends on the leaves under it only. -/
theorem least_congr (h : ∀ i j, Under l r c i j → leaf i j = leaf' i j) :
    least leaf l r c = least leaf' l r c := by
  refine le_antisymm (le_least_iff.mpr fun i j hunder => ?_) (le_least_iff.mpr fun i j hunder => ?_)
  · exact h i j hunder ▸ le_least_iff.mp (le_refl _) i j hunder
  · exact h i j hunder ▸ le_least_iff.mp (le_refl _) i j hunder

/-- The four values in another order, as two pairs side by side. -/
theorem square_eq (value : Nat → Nat → W) (r c : Nat) :
    square value r c = min (min (value (2 * r) (2 * c)) (value (2 * r) (2 * c + 1)))
      (min (value (2 * r + 1) (2 * c)) (value (2 * r + 1) (2 * c + 1))) :=
  min_min_min_comm _ _ _ _

/-! ## The walk down -/

/-- The minimum of the four is at the first cell that holds it. -/
theorem first_value (h : v = square value r c) :
    value (first value v r c).1 (first value v r c).2 = v := by
  rw [first]
  split_ifs with h₀ h₁ h₂
  · exact h₀
  · exact h₁
  · exact h₂
  · rw [h, square] at h₀ h₁ h₂ ⊢
    rcases min_choice (min (value (2 * r) (2 * c)) (value (2 * r + 1) (2 * c)))
      (min (value (2 * r) (2 * c + 1)) (value (2 * r + 1) (2 * c + 1))) with h' | h'
    · rcases min_choice (value (2 * r) (2 * c)) (value (2 * r + 1) (2 * c)) with h'' | h''
      · exact absurd (h'.trans h'').symm h₀
      · exact absurd (h'.trans h'').symm h₁
    · rcases min_choice (value (2 * r) (2 * c + 1)) (value (2 * r + 1) (2 * c + 1)) with h'' | h''
      · exact absurd (h'.trans h'').symm h₂
      · exact (h'.trans h'').symm

theorem first_mem : ∃ s < 2, ∃ t < 2, first value v r c = (2 * r + s, 2 * c + t) := by
  rw [first]
  split_ifs
  · exact ⟨0, by decide, 0, by decide, rfl⟩
  · exact ⟨1, by decide, 0, by decide, rfl⟩
  · exact ⟨0, by decide, 1, by decide, rfl⟩
  · exact ⟨1, by decide, 1, by decide, rfl⟩

/-- The walk ends at a leaf under its cell that holds the minimum. -/
theorem descend_spec (leaf : Nat → Nat → W) (l : Nat) (p : Nat × Nat) :
    Under l p.1 p.2 (descend leaf l p).1 (descend leaf l p).2 ∧
      leaf (descend leaf l p).1 (descend leaf l p).2 = least leaf l p.1 p.2 := by
  induction l generalizing p with
  | zero => exact ⟨under_zero.mpr ⟨rfl, rfl⟩, rfl⟩
  | succ l ih =>
    obtain ⟨s, hs, t, ht, hfirst⟩ :=
      @first_mem _ _ (least leaf l) (least leaf (l + 1) p.1 p.2) p.1 p.2
    have hvalue : least leaf l _ _ = _ := first_value (rfl : least leaf (l + 1) p.1 p.2 = _)
    obtain ⟨hunder, hleaf⟩ := ih (first (least leaf l) (least leaf (l + 1) p.1 p.2) p.1 p.2)
    refine ⟨under_succ.mpr ⟨s, hs, t, ht, ?_⟩, hleaf.trans hvalue⟩
    rw [hfirst] at hunder
    rw [descend, hfirst]
    exact hunder

/-! ## Where the walk ends -/

/-- A leaf's place in the order of the walk: the four cells under a cell are `0` to `3`. -/
def place : Nat → Nat → Nat → Nat
  | 0, _, _ => 0
  | l + 1, i, j => (i / 2 ^ l % 2 + 2 * (j / 2 ^ l % 2)) * 4 ^ l + place l i j

theorem place_lt (l i j : Nat) : place l i j < 4 ^ l := by
  induction l with
  | zero => simp [place]
  | succ l ih =>
    have hdigit : i / 2 ^ l % 2 + 2 * (j / 2 ^ l % 2) + 1 ≤ 4 := by omega
    have hmul := Nat.mul_le_mul_right (4 ^ l) hdigit
    rw [Nat.add_mul, Nat.one_mul] at hmul
    rw [place, pow_succ]
    omega

/-- Of the cells that hold the minimum the first comes first. -/
theorem first_le {s t : Nat} (hs : s < 2) (ht : t < 2)
    (hcell : value (2 * r + s) (2 * c + t) = v) :
    ∃ s' < 2, ∃ t' < 2, first value v r c = (2 * r + s', 2 * c + t') ∧ s' + 2 * t' ≤ s + 2 * t := by
  rw [first]
  split_ifs with h₀ h₁ h₂
  · exact ⟨0, by decide, 0, by decide, rfl, by omega⟩
  · refine ⟨1, by decide, 0, by decide, rfl, ?_⟩
    by_contra hlt
    obtain ⟨rfl, rfl⟩ : s = 0 ∧ t = 0 := by omega
    exact h₀ hcell
  · refine ⟨0, by decide, 1, by decide, rfl, ?_⟩
    by_contra hlt
    obtain rfl : t = 0 := by omega
    obtain rfl | rfl : s = 0 ∨ s = 1 := by omega
    · exact h₀ hcell
    · exact h₁ hcell
  · refine ⟨1, by decide, 1, by decide, rfl, ?_⟩
    by_contra hlt
    obtain ⟨rfl, rfl⟩ | ⟨rfl, rfl⟩ | ⟨rfl, rfl⟩ :
        s = 0 ∧ t = 0 ∨ s = 1 ∧ t = 0 ∨ s = 0 ∧ t = 1 := by omega
    · exact h₀ hcell
    · exact h₁ hcell
    · exact h₂ hcell

/-- Of the leaves that hold the minimum the walk ends at the one whose place comes first. -/
theorem descend_place_le {p : Nat × Nat} (hunder : Under l p.1 p.2 i j)
    (hleaf : leaf i j = least leaf l p.1 p.2) :
    place l (descend leaf l p).1 (descend leaf l p).2 ≤ place l i j := by
  induction l generalizing p with
  | zero => simp [place]
  | succ l ih =>
    obtain ⟨s, hs, t, ht, hin⟩ := under_succ.mp hunder
    have hle : least leaf l (2 * p.1 + s) (2 * p.2 + t) = least leaf (l + 1) p.1 p.2 := by
      refine le_antisymm ?_ (le_square_iff.mp (le_refl _) s hs t ht)
      exact hleaf ▸ le_least_iff.mp (le_refl _) i j hin
    obtain ⟨s', hs', t', ht', hfirst, hbefore⟩ := first_le hs ht hle
    obtain ⟨hi, hj⟩ := hin
    obtain ⟨⟨hi', hj'⟩, -⟩ := descend_spec leaf l (2 * p.1 + s', 2 * p.2 + t')
    simp only at hi' hj'
    rw [descend, hfirst, place, place, hi, hj, hi', hj']
    have hd : (2 * p.1 + s) % 2 = s ∧ (2 * p.2 + t) % 2 = t := by omega
    have hd' : (2 * p.1 + s') % 2 = s' ∧ (2 * p.2 + t') % 2 = t' := by omega
    rw [hd.1, hd.2, hd'.1, hd'.2]
    obtain heq | hlt : s' + 2 * t' = s + 2 * t ∨ s' + 2 * t' + 1 ≤ s + 2 * t := by omega
    · obtain ⟨rfl, rfl⟩ : s' = s ∧ t' = t := by omega
      exact Nat.add_le_add_left (ih (p := (2 * p.1 + s', 2 * p.2 + t')) ⟨hi, hj⟩ (hleaf.trans hle.symm)) _
    · have hplace := place_lt l (descend leaf l (2 * p.1 + s', 2 * p.2 + t')).1
        (descend leaf l (2 * p.1 + s', 2 * p.2 + t')).2
      have hmul := Nat.mul_le_mul_right (4 ^ l) hlt
      rw [Nat.add_mul, Nat.one_mul] at hmul
      omega

end NssFactory.MinTree
