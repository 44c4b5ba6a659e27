import Mathlib.Data.List.Induction
import Mathlib.Data.List.Nodup
import Mathlib.Data.List.Sort
import NssFactory.Cpu.Match
import NssFactory.Lib.Loops

/-!
# The scan of a union of windows

A layer of the predictive searches (`collect_temporal` of `cpu/bm/matcher.hpp`, `image_match` of
`cpu/common/image.cpp`) takes the windows of `± ps_range` around its centers, clipped to the
image. Row by row the windows' intervals are sorted, and what an earlier interval has reached is
skipped. `layerVisits_eq` says that this is the raster scan of the union, each place once.
-/

namespace NssFactory.Cpu

open Loops

/-- The order of `std::pair<int, int>`. -/
def pairLe (a b : Int × Int) : Prop := a.1 < b.1 ∨ a.1 = b.1 ∧ a.2 ≤ b.2

instance : DecidableRel pairLe := fun a b => by unfold pairLe; infer_instance

/-- The windows of a layer. `maxX`, `maxY`: the last place of a patch in the image. -/
structure Windows where
  maxX : Int
  maxY : Int
  range : Int
  centers : List Match

namespace Windows

variable (w : Windows)

/-- The columns of the windows that reach row `y`. -/
def intervals (y : Int) : List (Int × Int) :=
  ((w.centers.filter fun c => ((y - c.y).natAbs : Int) ≤ w.range).map fun c =>
    (max 0 (c.x - w.range), min w.maxX (c.x + w.range))).insertionSort pairLe

/-- The columns that are visited for sorted intervals. -/
def rowVisits (intervals : List (Int × Int)) : List Int :=
  (intervals.foldl
    (fun (s : List Int × Int) i => (s.1 ++ Int.range (max (s.2 + 1) i.1) (i.2 + 1), max s.2 i.2))
    ([], -1)).1

/-- The first and the last row of the windows. `height`: that of the image. -/
def rows (height : Int) : Int × Int :=
  w.centers.foldl
    (fun s c => (min s.1 (max 0 (c.y - w.range)), max s.2 (min w.maxY (c.y + w.range))))
    (height, -1)

/-- The places of a layer, in the order in which they are visited. -/
def layerVisits (height : Int) : List (Int × Int) :=
  (Int.range (w.rows height).1 ((w.rows height).2 + 1)).flatMap fun y =>
    (rowVisits (w.intervals y)).map fun x => (x, y)

/-! ## The union -/

/-- The place is in a window. -/
def Covers (x y : Int) : Prop := ∃ c ∈ w.centers, ((y - c.y).natAbs : Int) ≤ w.range ∧ ((x - c.x).natAbs : Int) ≤ w.range

instance (x y : Int) : Decidable (w.Covers x y) := by unfold Covers; infer_instance

/-- The union of the windows, row by row. -/
def union : List (Int × Int) :=
  (Int.range 0 (w.maxY + 1)).flatMap fun y =>
    ((Int.range 0 (w.maxX + 1)).filter (w.Covers · y)).map fun x => (x, y)

variable {w} {x y height : Int}

theorem mem_union {p : Int × Int} : p ∈ w.union ↔
    (0 ≤ p.1 ∧ p.1 ≤ w.maxX) ∧ (0 ≤ p.2 ∧ p.2 ≤ w.maxY) ∧ w.Covers p.1 p.2 := by
  simp only [union, List.mem_flatMap, List.mem_map, List.mem_filter, Int.mem_range_iff,
    decide_eq_true_eq, Int.lt_add_one_iff]
  constructor
  · rintro ⟨y, hy, x, ⟨hx, hcovers⟩, rfl⟩
    exact ⟨hx, hy, hcovers⟩
  · rintro ⟨hx, hy, hcovers⟩
    exact ⟨p.2, hy, p.1, ⟨hx, hcovers⟩, rfl⟩

theorem union_nodup : w.union.Nodup := by
  apply List.nodup_flatMap.mpr
  refine ⟨fun y _ => ((range_nodup _ _).filter _).map fun a b hab => (Prod.mk.inj hab).1, ?_⟩
  apply (range_nodup _ _).imp
  intro y y' hne p hp hp'
  obtain ⟨x, -, rfl⟩ := List.mem_map.mp hp
  obtain ⟨x', -, heq⟩ := List.mem_map.mp hp'
  exact hne (Prod.mk.inj heq).2.symm

/-! ## The scan -/

/-- What the intervals so far have reached: `done` is their end, and nothing before it is
left. -/
structure Merged (before : List (Int × Int)) (s : List Int × Int) : Prop where
  increasing : s.1.Pairwise (· < ·)
  mem : ∀ x, x ∈ s.1 ↔ ∃ i ∈ before, i.1 ≤ x ∧ x ≤ i.2
  done : -1 ≤ s.2 ∧ (∀ i ∈ before, i.2 ≤ s.2) ∧ (s.2 = -1 ∨ ∃ i ∈ before, i.2 = s.2)

theorem rowVisits_merged {before after : List (Int × Int)} {s : List Int × Int}
    (h : Merged before s) (hstart : ∀ i ∈ before ++ after, 0 ≤ i.1)
    (hsorted : (before ++ after).Pairwise fun a b => a.1 ≤ b.1) :
    Merged (before ++ after) (after.foldl
      (fun (s : List Int × Int) i => (s.1 ++ Int.range (max (s.2 + 1) i.1) (i.2 + 1), max s.2 i.2))
      s) := by
  induction after generalizing before s with
  | nil => rwa [List.append_nil]
  | cons i after ih =>
    rw [List.append_cons] at hstart hsorted ⊢
    rw [List.foldl_cons]
    apply ih _ hstart hsorted
    obtain ⟨hdone, hle, hlast⟩ := h.done
    have hi : 0 ≤ i.1 := hstart i (by simp)
    have hfirst : ∀ a ∈ before, a.1 ≤ i.1 := fun a ha =>
      (List.pairwise_append.mp (List.pairwise_append.mp hsorted).1).2.2 a ha i (by simp)
    refine ⟨?_, ?_, ?_⟩
    · apply List.pairwise_append.mpr
      refine ⟨h.increasing, range_pairwise _ _, fun a ha b hb => ?_⟩
      obtain ⟨j, hj, -, hend⟩ := (h.mem a).mp ha
      have hb := Int.mem_range_iff.mp hb
      have := hle j hj
      omega
    · intro x
      simp only [List.mem_append, List.mem_singleton, Int.mem_range_iff, h.mem]
      constructor
      · rintro (⟨j, hj, hx⟩ | hx)
        · exact ⟨j, .inl hj, hx⟩
        · exact ⟨i, .inr rfl, by omega, by omega⟩
      · rintro ⟨j, hj | rfl, hlo, hhi⟩
        · exact .inl ⟨j, hj, hlo, hhi⟩
        · by_cases hx : s.2 + 1 ≤ x
          · exact .inr ⟨by omega, by omega⟩
          · -- the interval that ended last reaches back to `x`
            rcases hlast with hnone | ⟨k, hk, hend⟩
            · omega
            · exact .inl ⟨k, hk, by have := hfirst k hk; omega, by omega⟩
    · refine ⟨by dsimp only; omega, fun j hj => ?_, ?_⟩
      · rcases List.mem_append.mp hj with hj | hj
        · have := hle j hj
          dsimp only
          omega
        · obtain rfl := List.mem_singleton.mp hj
          dsimp only
          omega
      · dsimp only
        rcases le_total s.2 i.2 with hmax | hmax
        · exact .inr ⟨i, by simp, by omega⟩
        · rcases hlast with hnone | ⟨k, hk, hend⟩
          · exact .inl (by omega)
          · exact .inr ⟨k, by simp [hk], by omega⟩

theorem intervals_sorted : (w.intervals y).Pairwise fun a b => a.1 ≤ b.1 := by
  have htrans : IsTrans (Int × Int) pairLe := ⟨fun a b c hab hbc => by
    unfold pairLe at *
    omega⟩
  have htotal : Std.Total pairLe := ⟨fun a b => by
    unfold pairLe
    omega⟩
  apply (List.pairwise_insertionSort pairLe _).imp
  intro a b hab
  unfold pairLe at hab
  omega

theorem mem_intervals {i : Int × Int} : i ∈ w.intervals y ↔
    ∃ c ∈ w.centers, ((y - c.y).natAbs : Int) ≤ w.range ∧
      (max 0 (c.x - w.range), min w.maxX (c.x + w.range)) = i := by
  rw [intervals, (List.perm_insertionSort pairLe _).mem_iff]
  simp [and_assoc]

theorem rowVisits_eq :
    rowVisits (w.intervals y) = (Int.range 0 (w.maxX + 1)).filter (w.Covers · y) := by
  have hstart : ∀ i ∈ [] ++ w.intervals y, 0 ≤ i.1 := by
    intro i hi
    obtain ⟨c, -, -, rfl⟩ := mem_intervals.mp hi
    exact le_max_left _ _
  have hempty : Merged [] ([], -1) := by
    refine ⟨.nil, fun x => by simp, le_refl _, nofun, .inl rfl⟩
  have hmerged := rowVisits_merged hempty hstart intervals_sorted
  apply eq_of_increasing hmerged.increasing ((range_pairwise _ _).filter _)
  intro x
  rw [hmerged.mem]
  simp only [List.nil_append, mem_intervals, List.mem_filter, Int.mem_range_iff,
    decide_eq_true_eq]
  constructor
  · rintro ⟨i, ⟨c, hc, hy, rfl⟩, hlo, hhi⟩
    dsimp only at hlo hhi
    exact ⟨by omega, c, hc, hy, by omega⟩
  · rintro ⟨hx, c, hc, hy, hcx⟩
    refine ⟨_, ⟨c, hc, hy, rfl⟩, ?_, ?_⟩
    · dsimp only
      omega
    · dsimp only
      omega

theorem rows_bounds (hheight : 0 ≤ height) (hmaxY : -1 ≤ w.maxY) :
    (∀ c ∈ w.centers, (w.rows height).1 ≤ max 0 (c.y - w.range) ∧
      min w.maxY (c.y + w.range) ≤ (w.rows height).2) ∧
      0 ≤ (w.rows height).1 ∧ (w.rows height).2 ≤ w.maxY := by
  unfold rows
  induction w.centers using List.reverseRecOn with
  | nil => exact ⟨nofun, hheight, hmaxY⟩
  | append_singleton cs c ih =>
    obtain ⟨hcs, hlo, hhi⟩ := ih
    rw [List.foldl_append, List.foldl_cons, List.foldl_nil]
    refine ⟨fun d hd => ?_, by dsimp only; omega, by dsimp only; omega⟩
    rcases List.mem_append.mp hd with hd | hd
    · have := hcs d hd
      dsimp only
      omega
    · obtain rfl := List.mem_singleton.mp hd
      dsimp only
      omega

/-- A row that no window reaches is empty. -/
theorem flatMap_rows_empty {a b : Int} (h : ∀ y, a ≤ y → y < b → ∀ c ∈ w.centers,
    ¬((y - c.y).natAbs : Int) ≤ w.range) :
    ((Int.range a b).flatMap fun y =>
      ((Int.range 0 (w.maxX + 1)).filter (w.Covers · y)).map fun x => (x, y)) = [] := by
  apply List.flatMap_eq_nil_iff.mpr
  intro y hy
  obtain ⟨hlo, hhi⟩ := Int.mem_range_iff.mp hy
  rw [List.map_eq_nil_iff, List.filter_eq_nil_iff]
  intro x _ hcovers
  obtain ⟨c, hc, hcy, -⟩ := of_decide_eq_true hcovers
  exact h y hlo hhi c hc hcy

/-- A layer visits the union of its windows in raster order, each place once. -/
theorem layerVisits_eq (hheight : 0 ≤ height) (hmaxY : -1 ≤ w.maxY) :
    w.layerVisits height = w.union := by
  obtain ⟨hcenters, hlo, hhi⟩ := rows_bounds hheight hmaxY
  have hreached : ∀ y, 0 ≤ y → y < w.maxY + 1 → ¬((w.rows height).1 ≤ y ∧ y ≤ (w.rows height).2) →
      ∀ c ∈ w.centers, ¬((y - c.y).natAbs : Int) ≤ w.range := by
    intro y hy hy' hout c hc hreach
    obtain ⟨hfirst, hlast⟩ := hcenters c hc
    exact hout ⟨by omega, by omega⟩
  unfold layerVisits union
  simp only [rowVisits_eq]
  by_cases hrows : (w.rows height).1 ≤ (w.rows height).2 + 1
  · have hbefore := flatMap_rows_empty (w := w) (a := 0) (b := (w.rows height).1)
      fun y hy hy' => hreached y hy (by omega) (by omega)
    have hafter := flatMap_rows_empty (w := w) (a := (w.rows height).2 + 1) (b := w.maxY + 1)
      fun y hy hy' => hreached y (by omega) hy' (by omega)
    rw [range_append hlo (show (w.rows height).1 ≤ w.maxY + 1 by omega),
      range_append hrows (show (w.rows height).2 + 1 ≤ w.maxY + 1 by omega),
      List.flatMap_append, List.flatMap_append, hbefore, hafter, List.nil_append, List.append_nil]
  · rw [range_empty (show (w.rows height).2 + 1 ≤ (w.rows height).1 by omega), List.flatMap_nil]
    exact (flatMap_rows_empty fun y hy hy' => hreached y hy hy' (by omega)).symm

end Windows

end NssFactory.Cpu
