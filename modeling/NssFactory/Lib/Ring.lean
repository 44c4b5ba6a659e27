import Mathlib.Data.Int.Basic
import Mathlib.Data.List.Basic
import Mathlib.Logic.Function.Basic

/-!
# Rings of cells

Point `a` of a sequence is kept in cell `a % k` of a ring of `k` cells. Points closer than
the ring is long have different cells (`cell_inj`), so that what is written for one of them
leaves the others alone (`update_cell_of_ne`, `putAll_cell`).
-/

namespace NssFactory

/-- Two points of a window no longer than the ring have different cells. -/
theorem cell_inj {k a b : Int} (hab : a - b < k) (hba : b - a < k) (h : a % k = b % k) :
    a = b := by
  have hd := Int.dvd_of_emod_eq_zero (Int.emod_eq_emod_iff_emod_sub_eq_zero.mp h)
  have h0 := Int.eq_zero_of_dvd_of_natAbs_lt_natAbs hd (by omega)
  omega

theorem cell_ne {k a b : Int} (hab : a - b < k) (hba : b - a < k) (h : a ≠ b) :
    a % k ≠ b % k :=
  fun he => h (cell_inj hab hba he)

/-- Writing the cell of one target leaves the other targets of the window alone. -/
theorem update_cell_of_ne {A : Type*} {k a b : Int} (cells : Int → A) (v : A)
    (hab : a - b < k) (hba : b - a < k) (h : a ≠ b) :
    Function.update cells (b % k) v (a % k) = cells (a % k) :=
  Function.update_of_ne (cell_ne hab hba h) _ _

/-- The cells of some points, each set to the value of its point. -/
def putAll {A : Type*} (k : Int) (value : Int → A) (points : List Int) (cells : Int → A) :
    Int → A :=
  points.foldl (fun cells p => Function.update cells (p % k) (value p)) cells

section putAll

variable {A : Type*} {k : Int} {value : Int → A} {points : List Int} {cells : Int → A} {a : Int}

theorem putAll_cell (h : ∀ p ∈ points, p % k = a % k → p = a) :
    putAll k value points cells (a % k) = if a ∈ points then value a else cells (a % k) := by
  induction points generalizing cells with
  | nil => rfl
  | cons p ps ih =>
    have hp := h p List.mem_cons_self
    rw [putAll, List.foldl_cons, ← putAll, ih fun q hq => h q (List.mem_cons_of_mem _ hq)]
    by_cases ha : a ∈ ps
    · simp [ha]
    · by_cases heq : a = p
      · simp [heq]
      · have hne : a % k ≠ p % k := fun hc => heq (hp hc.symm).symm
        simp [ha, heq, Function.update_of_ne hne]

/-- A cell that no point has keeps its value. -/
theorem putAll_of_ne (h : ∀ p ∈ points, p % k ≠ a % k) :
    putAll k value points cells (a % k) = cells (a % k) := by
  rw [putAll_cell fun p hp hc => absurd hc (h p hp), if_neg fun ha => h a ha rfl]

/-- A ring that says which point each cell has was told so now or before. -/
theorem putAll_id_cases {cells : Int → Int}
    (hdist : ∀ p ∈ points, ∀ q ∈ points, p % k = q % k → p = q)
    (h : putAll k id points cells (a % k) = a) :
    a ∈ points ∨ (∀ p ∈ points, p % k ≠ a % k) ∧ cells (a % k) = a := by
  by_cases hcol : ∃ p ∈ points, p % k = a % k
  · obtain ⟨p, hp, hcell⟩ := hcol
    rw [← hcell, putAll_cell fun q hq => hdist q hq p hp, if_pos hp, id] at h
    exact .inl (h ▸ hp)
  · have hne : ∀ p ∈ points, p % k ≠ a % k := fun p hp hcell => hcol ⟨p, hp, hcell⟩
    rw [putAll_of_ne hne] at h
    exact .inr ⟨hne, h⟩

end putAll

end NssFactory
