import Mathlib.Data.Finset.Prod
import Mathlib.Tactic.Ring
import NssFactory.Lib.Lanes

/-!
# The offsets NLM visits

`NlmPass::run` goes through half of the search window only: the offsets before the center in
(frame, row, column) order. Each of them stands for its negation too.

* `position`: the linear index the skip test computes; `position_neg`, `position_eq_zero`.
* `mem_visited`: the offsets visited.
* `sum_window`: a sum over the window without the center is a sum over the offsets visited, with
  their negations.
-/

namespace NssFactory.Nlm

/-- A frame, row and column offset. -/
abbrev Offset := Int × Int × Int

/-- The index of an offset in (frame, row, column) order, the center at 0. -/
def position (a : Int) (o : Offset) : Int :=
  let span := 2 * a + 1
  o.1 * span * span + o.2.1 * span + o.2.2

/-- The offsets before the center. -/
def visited (d a : Int) : List Offset :=
  (Int.range (-d) 1).flatMap fun i =>
    (Int.range (-a) (a + 1)).flatMap fun oy =>
      (Int.range (-a) (a + 1)).flatMap fun ox =>
        if position a (i, oy, ox) ≥ 0 then [] else [(i, oy, ox)]

/-- The offsets of the window. -/
def InWindow (d a : Int) (o : Offset) : Prop :=
  (-d ≤ o.1 ∧ o.1 ≤ d) ∧ (-a ≤ o.2.1 ∧ o.2.1 ≤ a) ∧ (-a ≤ o.2.2 ∧ o.2.2 ≤ a)

def Offset.neg (o : Offset) : Offset := (-o.1, -o.2.1, -o.2.2)

/-- The window without the center. -/
def others (d a : Int) : Finset Offset :=
  (points (-d) (d + 1) ×ˢ points (-a) (a + 1) ×ˢ points (-a) (a + 1)).erase (0, 0, 0)

variable {d a : Int} {o : Offset}

theorem mem_others : o ∈ others d a ↔ o ≠ (0, 0, 0) ∧ InWindow d a o := by
  simp only [others, InWindow, Finset.mem_erase, Finset.mem_product, mem_points, Int.lt_add_one_iff]

@[simp] theorem Offset.neg_neg (o : Offset) : o.neg.neg = o := by
  simp [Offset.neg]

theorem InWindow.neg (h : InWindow d a o) : InWindow d a o.neg := by
  simp only [InWindow, Offset.neg] at h ⊢
  omega

@[simp] theorem position_neg (a : Int) (o : Offset) : position a o.neg = -position a o := by
  simp only [position, Offset.neg]
  ring

/-- A digit and what stands before it have the sign of the number. -/
theorem digits_sign {q r : Int} (hr : -a ≤ r ∧ r ≤ a) :
    (0 < q → 0 < q * (2 * a + 1) + r) ∧ (q < 0 → q * (2 * a + 1) + r < 0) := by
  constructor
  · intro hq
    have := Int.mul_le_mul_of_nonneg_right (show 1 ≤ q by omega) (show 0 ≤ 2 * a + 1 by omega)
    omega
  · intro hq
    have := Int.mul_le_mul_of_nonneg_right (show q ≤ -1 by omega) (show 0 ≤ 2 * a + 1 by omega)
    omega

theorem position_eq (a : Int) (o : Offset) :
    position a o = (o.1 * (2 * a + 1) + o.2.1) * (2 * a + 1) + o.2.2 := by
  simp only [position]
  ring

/-- Only the center is at 0. -/
theorem position_eq_zero (h : InWindow d a o) (h0 : position a o = 0) : o = (0, 0, 0) := by
  obtain ⟨i, oy, ox⟩ := o
  obtain ⟨-, hy, hx⟩ := h
  rw [position_eq] at h0
  simp only at hy hx h0
  have hrow : i * (2 * a + 1) + oy = 0 := by
    rcases Int.lt_trichotomy (i * (2 * a + 1) + oy) 0 with hlt | heq | hgt
    · have := (digits_sign hx).2 hlt
      omega
    · exact heq
    · have := (digits_sign hx).1 hgt
      omega
  have hframe : i = 0 := by
    rcases Int.lt_trichotomy i 0 with hlt | heq | hgt
    · have := (digits_sign hy).2 hlt
      omega
    · exact heq
    · have := (digits_sign hy).1 hgt
      omega
  subst hframe
  simp at hrow h0
  subst hrow
  simpa using h0

/-- Offsets in later frames come after the center. -/
theorem frame_le_of_position (h : InWindow d a o) (hneg : position a o < 0) : o.1 ≤ 0 := by
  by_contra hpos
  have hrow := (digits_sign h.2.1).1 (show 0 < o.1 by omega)
  have hcol := (digits_sign h.2.2).1 hrow
  rw [position_eq] at hneg
  omega

theorem mem_visited : o ∈ visited d a ↔ InWindow d a o ∧ position a o < 0 := by
  obtain ⟨i, oy, ox⟩ := o
  have hmem : (i, oy, ox) ∈ visited d a ↔ (-d ≤ i ∧ i < 1) ∧ (-a ≤ oy ∧ oy < a + 1) ∧
      (-a ≤ ox ∧ ox < a + 1) ∧ position a (i, oy, ox) < 0 := by
    simp only [visited, List.mem_flatMap, Int.mem_range_iff]
    constructor
    · rintro ⟨i', hi, oy', hy, ox', hx, hin⟩
      split at hin
      · cases hin
      · cases List.mem_singleton.mp hin
        exact ⟨hi, hy, hx, by omega⟩
    · rintro ⟨hi, hy, hx, hneg⟩
      exact ⟨i, hi, oy, hy, ox, hx, by rw [if_neg (by omega)]; exact List.mem_singleton.mpr rfl⟩
  rw [hmem]
  constructor
  · rintro ⟨hi, hy, hx, hneg⟩
    refine ⟨⟨⟨hi.1, ?_⟩, ⟨hy.1, by simp only; omega⟩, hx.1, by simp only; omega⟩, hneg⟩
    simp only
    omega
  · rintro ⟨hwin, hneg⟩
    have hframe := frame_le_of_position hwin hneg
    obtain ⟨hi, hy, hx⟩ := hwin
    simp only at hi hy hx hframe
    exact ⟨⟨hi.1, by omega⟩, ⟨hy.1, by omega⟩, ⟨hx.1, by omega⟩, hneg⟩

/-- No offset is visited twice. -/
theorem visited_nodup (d a : Int) : (visited d a).Nodup := by
  refine Loops.nodup_flatMap_key (fun o => o.1) (Loops.range_nodup _ _) (fun i _ => ?_) ?_
  · refine Loops.nodup_flatMap_key (fun o => o.2.1) (Loops.range_nodup _ _) (fun oy _ => ?_) ?_
    · refine Loops.nodup_flatMap_key (fun o => o.2.2) (Loops.range_nodup _ _) (fun ox _ => ?_) ?_
      · split
        · exact List.nodup_nil
        · exact List.nodup_singleton _
      · intro ox _ o ho
        split at ho
        · cases ho
        · cases List.mem_singleton.mp ho
          rfl
    · intro oy _ o ho
      obtain ⟨ox, -, ho⟩ := List.mem_flatMap.mp ho
      split at ho
      · cases ho
      · cases List.mem_singleton.mp ho
        rfl
  · intro i _ o ho
    obtain ⟨oy, -, ho⟩ := List.mem_flatMap.mp ho
    obtain ⟨ox, -, ho⟩ := List.mem_flatMap.mp ho
    split at ho
    · cases ho
    · cases List.mem_singleton.mp ho
      rfl

/-- **Each offset but the center once**: the offsets visited and their negations. -/
theorem visited_neg (d a : Int) :
    (visited d a ++ (visited d a).map Offset.neg).Nodup ∧
      ∀ o, o ∈ visited d a ++ (visited d a).map Offset.neg ↔ o ∈ others d a := by
  have hmem : ∀ o, o ∈ (visited d a).map Offset.neg ↔ InWindow d a o ∧ 0 < position a o := by
    intro o
    rw [List.mem_map]
    constructor
    · rintro ⟨o', ho', rfl⟩
      obtain ⟨hwin, hneg⟩ := mem_visited.mp ho'
      exact ⟨hwin.neg, by rw [position_neg]; omega⟩
    · rintro ⟨hwin, hpos⟩
      exact ⟨o.neg, mem_visited.mpr ⟨hwin.neg, by rw [position_neg]; omega⟩, o.neg_neg⟩
  constructor
  · rw [List.nodup_append']
    refine ⟨visited_nodup d a, ?_, fun o ho ho' => ?_⟩
    · exact (visited_nodup d a).map fun o o' h => by rw [← o.neg_neg, h, o'.neg_neg]
    · have h1 := (mem_visited.mp ho).2
      have h2 := ((hmem o).mp ho').2
      omega
  · intro o
    rw [List.mem_append, hmem, mem_visited, mem_others]
    constructor
    · rintro (⟨hwin, hne⟩ | ⟨hwin, hne⟩) <;> refine ⟨?_, hwin⟩ <;> rintro rfl <;>
        simp [position] at hne
    · rintro ⟨hne, hwin⟩
      rcases Int.lt_trichotomy (position a o) 0 with hlt | heq | hgt
      · exact .inl ⟨hwin, hlt⟩
      · exact absurd (position_eq_zero hwin heq) hne
      · exact .inr ⟨hwin, hgt⟩

/-- A sum over the window without the center. -/
theorem sum_others {M : Type*} [AddCommMonoid M] (d a : Int) (f : Offset → M) :
    ∑ o ∈ others d a, f o = ((visited d a).map fun o => f o + f o.neg).sum := by
  obtain ⟨hnodup, hmem⟩ := visited_neg d a
  have hset : others d a = (visited d a ++ (visited d a).map Offset.neg).toFinset := by
    ext o
    rw [List.mem_toFinset, hmem]
  rw [hset, List.sum_toFinset _ hnodup, List.map_append, List.sum_append, List.map_map]
  exact (List.sum_map_add).symm

end NssFactory.Nlm
