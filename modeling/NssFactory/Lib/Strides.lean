import Mathlib.Data.List.Basic
import Mathlib.Data.List.Nodup
import Mathlib.Data.List.Range
import Mathlib.Algebra.Order.Ring.Nat
import Mathlib.Tactic.Ring

/-!
# Strides along an axis

A loop `for (x = 0; x < bound; x += step)` visits the multiples of its step. Clamped to the
last place of an axis they are its *places*: strictly increasing, the last place once, and
with blocks no shorter than the step they leave no point of the axis out. A raster is the
product of two axes, its index counts rows of the first.
-/

namespace NssFactory.Strides

/-- The counter of `for (x; x < bound; x += step)`, `fuel` rounds of it at most. -/
def starts (step bound : Int) : Nat → Int → List Int
  | 0, _ => []
  | fuel + 1, x => if x < bound then x :: starts step bound fuel (x + step) else []

/-- The places of an axis whose last is `last`. -/
def count (last step : Nat) : Nat := (last + step - 1) / step + 1

/-- Place `i`. -/
def place (last step i : Nat) : Nat := min (i * step) last

section Axis

variable {last step i j k : Nat}

theorem count_pos : 0 < count last step := Nat.succ_pos _

theorem lt_count_iff (hstep : 1 ≤ step) : k < count last step ↔ k * step < last + step := by
  rw [count, Nat.lt_succ_iff, Nat.le_div_iff_mul_le (by omega)]
  omega

theorem count_le (hstep : 1 ≤ step) : count last step ≤ last + 1 := by
  by_contra hmore
  have hin : (last + 1) * step < last + step := (lt_count_iff hstep).mp (by omega)
  have hmul : last * 1 ≤ last * step := Nat.mul_le_mul_left last hstep
  have hsucc : (last + 1) * step = last * step + step := by ring
  omega

/-- The loop to `last + step` visits every multiple that has a place. -/
theorem starts_eq (hstep : 1 ≤ step) {fuel : Nat} (hfuel : count last step ≤ fuel) :
    starts step (last + step) fuel 0 = (List.range (count last step)).map fun i => ((i * step : Nat) : Int) := by
  have hfrom : ∀ (d k fuel : Nat), d + k = count last step → d ≤ fuel →
      starts step (last + step) fuel ((k * step : Nat) : Int) =
        (List.range' k d).map fun i => ((i * step : Nat) : Int) := by
    intro d
    induction d with
    | zero =>
      intro k fuel hk _
      have hout : ¬k * step < last + step := mt (lt_count_iff hstep).mpr (by omega)
      cases fuel with
      | zero => rfl
      | succ fuel => rw [starts, if_neg (by omega)]; rfl
    | succ d ih =>
      intro k fuel hk hfuel
      have hin : k * step < last + step := (lt_count_iff hstep).mp (by omega)
      obtain ⟨fuel, rfl⟩ : ∃ f, fuel = f + 1 := ⟨fuel - 1, by omega⟩
      have hnext : ((k * step : Nat) : Int) + step = (((k + 1) * step : Nat) : Int) := by
        push_cast
        ring
      rw [starts, if_pos (by omega), hnext, ih (k + 1) fuel (by omega) (by omega)]
      rfl
  have h := hfrom (count last step) 0 fuel (by omega) hfuel
  simpa [List.range_eq_range'] using h

/-- Only the last place is clamped. -/
theorem place_eq (hstep : 1 ≤ step) (h : i + 1 < count last step) :
    place last step i = i * step ∧ i * step < last := by
  have hlt := (lt_count_iff hstep).mp h
  have hnext : (i + 1) * step = i * step + step := by ring
  have : i * step < last := by omega
  exact ⟨Nat.min_eq_left (by omega), this⟩

theorem place_lt (hstep : 1 ≤ step) (hij : i < j) (hj : j < count last step) :
    place last step i < place last step j := by
  obtain ⟨hi, hlast⟩ : place last step i = i * step ∧ i * step < last :=
    place_eq hstep (by omega)
  have hmul : i * step < j * step := Nat.mul_lt_mul_of_pos_right hij (by omega)
  rw [hi, place]
  omega

theorem place_last (hstep : 1 ≤ step) : place last step (count last step - 1) = last := by
  refine Nat.min_eq_right ?_
  have hout : ¬count last step * step < last + step := mt (lt_count_iff hstep).mpr (by omega)
  have hsucc : count last step * step = (count last step - 1) * step + step := by
    obtain ⟨c, hc⟩ : ∃ c, count last step = c + 1 := ⟨_, rfl⟩
    rw [hc, Nat.add_sub_cancel]
    ring
  omega

/-- Blocks no shorter than the step cover the axis. -/
theorem place_covers {block p : Nat} (hstep : 1 ≤ step) (hblock : step ≤ block) (hp : p < last + block) :
    ∃ i < count last step, place last step i ≤ p ∧ p < place last step i + block := by
  by_cases hlast : p < last
  · have hdown : p / step * step ≤ p := Nat.div_mul_le_self p step
    have hup : p < p / step * step + step := by
      have := Nat.lt_div_mul_add (a := p) (b := step) (by omega)
      omega
    have hplace : place last step (p / step) = p / step * step := Nat.min_eq_left (by omega)
    exact ⟨p / step, (lt_count_iff hstep).mpr (by omega), by omega, by omega⟩
  · have hcount : 0 < count last step := count_pos
    have hend : place last step (count last step - 1) = last := place_last hstep
    exact ⟨count last step - 1, by omega, by omega, by omega⟩

end Axis

/-! ## Rasters -/

/-- The indices of `ny` rows of `nx`, row by row. -/
def raster (nx ny : Nat) : List (Nat × Nat) :=
  (List.range ny).flatMap fun j => (List.range nx).map fun i => (i, j)

/-- The index counts whole rows. -/
theorem raster_eq (nx ny : Nat) :
    raster nx ny = (List.range (nx * ny)).map fun k => (k % nx, k / nx) := by
  induction ny with
  | zero => simp [raster]
  | succ ny ih =>
    have hrow : ((List.range nx).map fun i => (i, ny)) =
        ((List.range nx).map (nx * ny + ·)).map fun k => (k % nx, k / nx) := by
      rw [List.map_map]
      refine List.map_congr_left fun i hi => ?_
      have hi := List.mem_range.mp hi
      rw [Function.comp_apply, Nat.mul_add_mod, Nat.mod_eq_of_lt hi, Nat.mul_add_div (by omega),
        Nat.div_eq_of_lt hi, Nat.add_zero]
    rw [raster, List.range_succ, List.flatMap_append, ← raster, ih, Nat.mul_succ, List.range_add,
      List.map_append, ← hrow]
    simp

theorem length_raster (nx ny : Nat) : (raster nx ny).length = nx * ny := by
  simp [raster_eq]

theorem getElem?_raster {nx ny k : Nat} (h : k < nx * ny) :
    (raster nx ny)[k]? = some (k % nx, k / nx) := by
  simp [raster_eq, h]

theorem mem_raster {nx ny : Nat} {p : Nat × Nat} : p ∈ raster nx ny ↔ p.1 < nx ∧ p.2 < ny := by
  cases p with
  | mk i j =>
    constructor
    · intro h
      obtain ⟨j', hj, h⟩ := List.mem_flatMap.mp h
      obtain ⟨i', hi, h⟩ := List.mem_map.mp h
      obtain ⟨rfl, rfl⟩ := Prod.mk.inj h
      exact ⟨List.mem_range.mp hi, List.mem_range.mp hj⟩
    · rintro ⟨hi, hj⟩
      exact List.mem_flatMap.mpr ⟨j, List.mem_range.mpr hj,
        List.mem_map.mpr ⟨i, List.mem_range.mpr hi, rfl⟩⟩

/-- Rows come in order, and in a row its columns. -/
theorem raster_increasing (nx ny : Nat) :
    (raster nx ny).Pairwise fun p q => p.2 < q.2 ∨ p.2 = q.2 ∧ p.1 < q.1 := by
  induction ny with
  | zero => simp [raster]
  | succ ny ih =>
    rw [raster, List.range_succ, List.flatMap_append, ← raster, List.pairwise_append]
    refine ⟨ih, ?_, ?_⟩
    · simp only [List.flatMap_cons, List.flatMap_nil, List.append_nil, List.pairwise_map]
      exact List.pairwise_lt_range.imp fun h => .inr ⟨trivial, h⟩
    · intro p hp q hq
      obtain ⟨-, hlt⟩ := mem_raster.mp hp
      simp only [List.flatMap_cons, List.flatMap_nil, List.append_nil, List.mem_map] at hq
      obtain ⟨i, -, rfl⟩ := hq
      exact .inl hlt

end NssFactory.Strides
