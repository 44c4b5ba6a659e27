import NssFactory.Lib.Keyed
import NssFactory.Lib.Lines
import Mathlib.Algebra.BigOperators.Group.Finset.Basic
import Mathlib.Algebra.BigOperators.Group.List.Lemmas
import Mathlib.Algebra.BigOperators.Intervals
import Mathlib.Data.BitVec
import Mathlib.Data.List.ProdSigma

/-!
# Fixed-point aggregation on the device

`cuda/common/fixed_accumulate.cuh` and the fixed kernels of `cuda/common/aggregate.cu`: the sums of
overlapping patches are integers in 64-bit cells, so that atomic additions give them in any
order. A patch adds its weighted samples to `num` at each of its pixels and its weight to `den`
at its corner only; two running sums over the corners bring back the weight of a pixel.

Floats are of any type `F`, with any rounding: `fixed_aggregation` says which terms meet in a
cell, whatever they are. Cells wrap, so a sum is one of 64-bit vectors.
-/

namespace NssFactory.Cuda.FixedAggregate

open Keyed Lines

/-! ## The kernels -/

structure FixedTarget where
  /-- Cells per row. -/
  pitch : Nat
  /-- Cells between slices. -/
  sliceStep : Nat
  sliceBase : Int
  slices : Int
  sliceFirst : Int
  sliceRing : Int

/-- `static_cast<unsigned>` of an `int`. -/
def asUnsigned (v : Int) : Int := v % 2 ^ 32

def fixedSlice (target : FixedTarget) (t : Int) : Int :=
  let slice := t + target.sliceBase
  if asUnsigned target.slices ≤ asUnsigned slice then -1
  else
    let cell := slice + target.sliceFirst
    if cell < target.sliceRing then cell else cell - target.sliceRing

def fixedPatchCell (target : FixedTarget) (t : Int) (y x : Nat) : Int :=
  let slice := fixedSlice target t
  if slice < 0 then -1 else slice * target.sliceStep + (y * target.pitch + x : Nat)

/-- What the kernels do with floats. -/
structure Floats (F : Type) where
  mul : F → F → F
  div : F → F → F
  kFixedScale : F
  /-- `__float2ll_rn` -/
  float2llRn : F → Int
  /-- `static_cast<float>` of a signed 64-bit integer. -/
  ofInt : Int → F
  /-- `1 / kFixedScale` -/
  kUnit : F
  /-- `den > 1e-12f` -/
  positive : F → Bool

/-- The two arrays of cells. -/
inductive Sums
  | num
  | den
  deriving DecidableEq

/-- An atomic addition: where, and how much. -/
abbrev Addition := (Sums × Int) × BitVec 64

structure Patch (F : Type) where
  /-- The window slot of its frame. -/
  t : Int
  y : Nat
  x : Nat
  weight : F
  value : Nat → Nat → F

section Kernels

variable {F : Type} (floats : Floats F) (target : FixedTarget) (block : Nat)

def toFixed (value : F) : BitVec 64 := .ofInt 64 (floats.float2llRn (floats.mul value floats.kFixedScale))

def fixedAdd (cells : Sums) (at_ : Int) (value : F) : Addition := ((cells, at_), toFixed floats value)

/-- What the thread or the threads of a patch add. -/
def patchAdditions (p : Patch F) : List Addition :=
  let cell := fixedPatchCell target p.t p.y p.x
  if cell < 0 then []
  else
    ((List.range block).flatMap fun (row : Nat) => (List.range block).map fun (col : Nat) =>
      fixedAdd floats .num (cell + (row * target.pitch + col : Nat))
        (floats.mul p.weight (p.value row col))) ++
      [fixedAdd floats .den cell p.weight]

/-- Atomic additions, one after the other. -/
def runAdditions (additions : List Addition) (cells : Sums × Int → BitVec 64) : Sums × Int → BitVec 64 :=
  additions.foldl (post (· + ·)) cells

/-- The threads of a launch in blocks of 32 by 8 that find a pixel. -/
def threads (width height : Nat) : List (Nat × Nat) :=
  ((List.range ((height + 7) / 8)).flatMap fun by_ => (List.range ((width + 31) / 32)).flatMap fun bx =>
    (List.range 8).flatMap fun ty => (List.range 32).map fun tx => (bx * 32 + tx, by_ * 8 + ty)).filter
      fun p => p.1 < width ∧ p.2 < height

/-- The value that the thread of `(x, y)` puts in `rows`. -/
def fixedRow (corner : Nat → BitVec 64) (pitch x y : Nat) : BitVec 64 :=
  (List.range (min block (x + 1))).foldl (fun sum j => sum + corner (y * pitch + x - j)) 0

def fixedRowsKernel (corner : Nat → BitVec 64) (pitch : Nat) (order : List (Nat × Nat))
    (rows : Nat → BitVec 64) : Nat → BitVec 64 :=
  storeAll (order.map fun p => (p.2 * pitch + p.1, fixedRow block corner pitch p.1 p.2)) rows

/-- The weight that the thread of `(x, y)` finds. -/
def finishWeight (rows : Nat → BitVec 64) (pitch x y : Nat) : BitVec 64 :=
  (List.range (min block (y + 1))).foldl (fun sum k => sum + rows (y * pitch + x - k * pitch)) 0

def fixedFinishKernel (fixedNum rows : Nat → BitVec 64) (src : Nat → F) (pitch : Nat)
    (order : List (Nat × Nat)) (out : Nat → F) : Nat → F :=
  storeAll (order.map fun p =>
    let i := p.2 * pitch + p.1
    let weight := finishWeight block rows pitch p.1 p.2
    let num := floats.mul (floats.ofInt (fixedNum i).toInt) floats.kUnit
    let den := floats.mul (floats.ofInt weight.toInt) floats.kUnit
    (i, if floats.positive den then floats.div num den else src i)) out

end Kernels

/-! ## Slices and cells -/

/-- The slots that the target keeps a slice for. -/
def FixedTarget.Keeps (target : FixedTarget) (t : Int) : Prop :=
  0 ≤ t + target.sliceBase ∧ t + target.sliceBase < target.slices

/-- A target as the callers lay it out, for planes of `width` by `height`. -/
structure FixedTarget.Laid (target : FixedTarget) (width height : Nat) : Prop where
  row : width ≤ target.pitch
  slice : height * target.pitch ≤ target.sliceStep
  first : 0 ≤ target.sliceFirst ∧ target.sliceFirst < target.sliceRing
  window : 0 ≤ target.slices ∧ target.slices ≤ target.sliceRing
  ring_int : target.sliceRing < 2 ^ 31

/-- A patch inside the plane, of a slot whose logical slice is an `int`. -/
structure Patch.Inside {F : Type} (p : Patch F) (target : FixedTarget) (block width height : Nat) : Prop where
  right : p.x + block ≤ width
  bottom : p.y + block ≤ height
  slice_int : -2 ^ 31 ≤ p.t + target.sliceBase ∧ p.t + target.sliceBase < 2 ^ 31

variable {F : Type} {floats : Floats F} {target : FixedTarget} {block width height : Nat}

theorem fixedSlice_of_keeps (hlaid : target.Laid width height) {t : Int} (ht : target.Keeps t) :
    fixedSlice target t = (t + target.sliceBase + target.sliceFirst) % target.sliceRing := by
  obtain ⟨hfirst, hring⟩ := hlaid.first
  obtain ⟨hslices, hwindow⟩ := hlaid.window
  have hint := hlaid.ring_int
  obtain ⟨hlow, hhigh⟩ := ht
  unfold fixedSlice asUnsigned
  dsimp only
  rw [Int.emod_eq_of_lt hslices (by omega), Int.emod_eq_of_lt hlow (by omega), if_neg (by omega)]
  split
  · rename_i hcell
    rw [Int.emod_eq_of_lt (by omega) hcell]
  · rename_i hcell
    rw [Int.emod_eq_sub_self_emod, Int.emod_eq_of_lt (by omega) (by omega)]

theorem fixedSlice_of_not_keeps (hlaid : target.Laid width height) {t : Int}
    (hint : -2 ^ 31 ≤ t + target.sliceBase ∧ t + target.sliceBase < 2 ^ 31) (ht : ¬ target.Keeps t) :
    fixedSlice target t = -1 := by
  obtain ⟨hslices, hwindow⟩ := hlaid.window
  have hring := hlaid.ring_int
  unfold FixedTarget.Keeps at ht
  unfold fixedSlice asUnsigned
  dsimp only
  rw [if_pos (by omega)]

theorem fixedSlice_bounds (hlaid : target.Laid width height) {t : Int} (ht : target.Keeps t) :
    0 ≤ fixedSlice target t ∧ fixedSlice target t < target.sliceRing := by
  rw [fixedSlice_of_keeps hlaid ht]
  have hring : 0 < target.sliceRing := by
    have hfirst := hlaid.first
    omega
  exact ⟨Int.emod_nonneg _ hring.ne', Int.emod_lt_of_pos _ hring⟩

theorem fixedSlice_inj (hlaid : target.Laid width height) {t t' : Int} (ht : target.Keeps t)
    (ht' : target.Keeps t') (heq : fixedSlice target t = fixedSlice target t') : t = t' := by
  have hwindow := hlaid.window
  unfold FixedTarget.Keeps at ht ht'
  rw [fixedSlice_of_keeps hlaid ht, fixedSlice_of_keeps hlaid ht'] at heq
  have hdvd : target.sliceRing ∣ t - t' := by
    have hdiff := Int.emod_eq_emod_iff_emod_sub_eq_zero.mp heq
    have hshift : t + target.sliceBase + target.sliceFirst - (t' + target.sliceBase + target.sliceFirst) =
        t - t' := by ring
    rw [hshift] at hdiff
    exact Int.dvd_of_emod_eq_zero hdiff
  have hzero : t - t' = 0 := Int.eq_zero_of_abs_lt_dvd hdvd (abs_lt.mpr ⟨by omega, by omega⟩)
  omega

/-- The cell of a pixel in the slice of a slot. -/
def pixelCell (target : FixedTarget) (t : Int) (y x : Nat) : Int :=
  fixedSlice target t * target.sliceStep + (y * target.pitch + x : Nat)

theorem pixel_inj {pitch x y x' y' : Nat} (hx : x < pitch) (hx' : x' < pitch)
    (heq : y * pitch + x = y' * pitch + x') : y = y' ∧ x = x' := by
  have hmod : x = x' := by
    have h := congrArg (· % pitch) heq
    simpa [Nat.mod_eq_of_lt hx, Nat.mod_eq_of_lt hx'] using h
  subst hmod
  exact ⟨Nat.eq_of_mul_eq_mul_right (by omega) (Nat.add_right_cancel heq), rfl⟩

theorem pixelCell_inj (hlaid : target.Laid width height) {t t' : Int} {x y x' y' : Nat}
    (ht : target.Keeps t) (ht' : target.Keeps t') (hx : x < width) (hx' : x' < width) (hy : y < height)
    (hy' : y' < height) (heq : pixelCell target t y x = pixelCell target t' y' x') :
    t = t' ∧ y = y' ∧ x = x' := by
  have hrow := hlaid.row
  have hstep : ∀ {x y : Nat}, x < width → y < height → y * target.pitch + x < target.sliceStep := by
    intro x y hx hy
    have hlast : (y + 1) * target.pitch ≤ height * target.pitch := Nat.mul_le_mul_right _ hy
    have hslice := hlaid.slice
    rw [Nat.add_mul] at hlast
    omega
  have h := hstep hx hy
  have h' := hstep hx' hy'
  unfold pixelCell at heq
  have hpixel : ((y * target.pitch + x : Nat) : Int) = (y' * target.pitch + x' : Nat) := by
    have hmod := congrArg (· % (target.sliceStep : Int)) heq
    simpa only [Int.mul_add_emod_self_right, Int.emod_eq_of_lt (Int.natCast_nonneg _) (Int.ofNat_lt.mpr h),
      Int.emod_eq_of_lt (Int.natCast_nonneg _) (Int.ofNat_lt.mpr h')] using hmod
  have hslice : fixedSlice target t = fixedSlice target t' := by
    rw [hpixel] at heq
    have hpos : (target.sliceStep : Int) ≠ 0 := by omega
    exact Int.eq_of_mul_eq_mul_right hpos (add_right_cancel heq)
  refine ⟨fixedSlice_inj hlaid ht ht' hslice, pixel_inj (by omega) (by omega) (Int.ofNat_inj.mp hpixel)⟩

/-! ## The sums in the cells -/

/-- The patch is one of the slot `t` and has the pixel `(x, y)`. -/
def Patch.Covers (p : Patch F) (block : Nat) (t : Int) (y x : Nat) : Prop :=
  p.t = t ∧ (p.y ≤ y ∧ y < p.y + block) ∧ p.x ≤ x ∧ x < p.x + block

instance (p : Patch F) (block : Nat) (t : Int) (y x : Nat) : Decidable (p.Covers block t y x) := by
  unfold Patch.Covers
  exact inferInstance

/-- The weighted sample that a patch has for a pixel. -/
def Patch.term (floats : Floats F) (p : Patch F) (y x : Nat) : BitVec 64 :=
  toFixed floats (floats.mul p.weight (p.value (y - p.y) (x - p.x)))

theorem patchCell_of_keeps (hlaid : target.Laid width height) {p : Patch F} (ht : target.Keeps p.t) :
    fixedPatchCell target p.t p.y p.x = pixelCell target p.t p.y p.x ∧ 0 ≤ pixelCell target p.t p.y p.x := by
  have hslice := (fixedSlice_bounds hlaid ht).1
  have hcell : 0 ≤ fixedSlice target p.t * target.sliceStep := Int.mul_nonneg hslice (Int.natCast_nonneg _)
  unfold fixedPatchCell pixelCell
  dsimp only
  rw [if_neg (by omega)]
  exact ⟨rfl, by omega⟩

theorem patchAdditions_of_keeps (hlaid : target.Laid width height) {p : Patch F} (ht : target.Keeps p.t) :
    patchAdditions floats target block p =
      ((List.range block ×ˢ List.range block).map fun o =>
        ((Sums.num, pixelCell target p.t (p.y + o.1) (p.x + o.2)), p.term floats (p.y + o.1) (p.x + o.2))) ++
      [((Sums.den, pixelCell target p.t p.y p.x), toFixed floats p.weight)] := by
  obtain ⟨hcell, hnonneg⟩ := patchCell_of_keeps hlaid ht
  unfold patchAdditions
  dsimp only
  rw [hcell, if_neg (by omega)]
  congr 1
  rw [SProd.sprod, List.instSProd]
  simp only [List.product, List.map_flatMap, List.map_map]
  congr 1
  funext row
  congr 1
  funext col
  unfold fixedAdd Patch.term pixelCell
  simp only [Function.comp_apply, Nat.add_sub_cancel_left]
  congr 2
  push_cast
  ring

theorem patchAdditions_of_not_keeps (hlaid : target.Laid width height) {p : Patch F}
    (hin : p.Inside target block width height) (ht : ¬ target.Keeps p.t) :
    patchAdditions floats target block p = [] := by
  unfold patchAdditions fixedPatchCell
  dsimp only
  rw [fixedSlice_of_not_keeps hlaid hin.slice_int ht]
  rfl

variable {t : Int} {y x : Nat}

theorem sent_num (hlaid : target.Laid width height) {p : Patch F}
    (hin : p.Inside target block width height) (ht : target.Keeps t) (hx : x < width) (hy : y < height) :
    (sent (Sums.num, pixelCell target t y x) (patchAdditions floats target block p)).sum =
      if p.Covers block t y x then p.term floats y x else 0 := by
  by_cases hkeeps : target.Keeps p.t
  · rw [patchAdditions_of_keeps hlaid hkeeps, sent_append]
    have hden : sent (Sums.num, pixelCell target t y x)
        [((Sums.den, pixelCell target p.t p.y p.x), toFixed floats p.weight)] = [] :=
      sent_none fun o ho => by
        rw [List.mem_singleton.mp ho]
        simp
    have hpatch : ∀ o ∈ List.range block ×ˢ List.range block, p.y + o.1 < height ∧ p.x + o.2 < width := by
      intro o ho
      have hright := hin.right
      have hbottom := hin.bottom
      obtain ⟨h₁, h₂⟩ := List.mem_product.mp ho
      rw [List.mem_range] at h₁ h₂
      omega
    rw [hden, List.append_nil]
    by_cases hcovers : p.Covers block t y x
    · obtain ⟨rfl, ⟨hy₀, hy₁⟩, hx₀, hx₁⟩ := id hcovers
      have hmem : (y - p.y, x - p.x) ∈ List.range block ×ˢ List.range block :=
        List.mem_product.mpr ⟨List.mem_range.mpr (by omega), List.mem_range.mpr (by omega)⟩
      let key : Nat × Nat → Sums × Int := fun o => (.num, pixelCell target p.t (p.y + o.1) (p.x + o.2))
      have hinj : ∀ o ∈ List.range block ×ˢ List.range block,
          key o = key (y - p.y, x - p.x) → o = (y - p.y, x - p.x) := by
        intro o ho heq
        obtain ⟨hoy, hox⟩ := hpatch o ho
        have hcell := (Prod.mk.inj heq).2
        obtain ⟨-, h₁, h₂⟩ := pixelCell_inj hlaid hkeeps hkeeps hox (by omega) hoy (by omega) hcell
        exact Prod.ext (by omega) (by omega)
      have hone : sent (key (y - p.y, x - p.x)) ((List.range block ×ˢ List.range block).map fun o =>
          (key o, p.term floats (p.y + o.1) (p.x + o.2))) = [p.term floats y x] := by
        have hsent : sent (key (y - p.y, x - p.x)) ((List.range block ×ˢ List.range block).map fun o =>
            (key o, p.term floats (p.y + o.1) (p.x + o.2))) =
              [p.term floats (p.y + (y - p.y)) (p.x + (x - p.x))] :=
          sent_map (List.nodup_range.product List.nodup_range) hmem hinj
        simpa only [Nat.add_sub_of_le hy₀, Nat.add_sub_of_le hx₀] using hsent
      simp only [key, Nat.add_sub_of_le hy₀, Nat.add_sub_of_le hx₀] at hone
      rw [hone, if_pos hcovers, List.sum_singleton]
    · rw [if_neg hcovers, sent_none, List.sum_nil]
      intro o ho heq
      obtain ⟨o, hmem, rfl⟩ := List.mem_map.mp ho
      obtain ⟨hoy, hox⟩ := hpatch o hmem
      obtain ⟨h₁, h₂⟩ := List.mem_product.mp hmem
      rw [List.mem_range] at h₁ h₂
      obtain ⟨ht', hy', hx'⟩ := pixelCell_inj hlaid hkeeps ht hox hx hoy hy (Prod.mk.inj heq).2
      exact hcovers ⟨ht', by omega, by omega⟩
  · rw [patchAdditions_of_not_keeps hlaid hin hkeeps, if_neg]
    · rfl
    · rintro ⟨rfl, -⟩
      exact hkeeps ht

theorem sent_den (hlaid : target.Laid width height) (hblock : 0 < block) {p : Patch F}
    (hin : p.Inside target block width height) (ht : target.Keeps t) (hx : x < width) (hy : y < height) :
    (sent (Sums.den, pixelCell target t y x) (patchAdditions floats target block p)).sum =
      if p.t = t ∧ p.y = y ∧ p.x = x then toFixed floats p.weight else 0 := by
  by_cases hkeeps : target.Keeps p.t
  · rw [patchAdditions_of_keeps hlaid hkeeps, sent_append, sent_none, List.nil_append]
    · by_cases hcorner : p.t = t ∧ p.y = y ∧ p.x = x
      · rw [if_pos hcorner]
        obtain ⟨rfl, rfl, rfl⟩ := hcorner
        simp [sent]
      · rw [if_neg hcorner, sent_none, List.sum_nil]
        intro o ho heq
        rw [List.mem_singleton.mp ho] at heq
        have hright := hin.right
        have hbottom := hin.bottom
        exact hcorner (pixelCell_inj hlaid hkeeps ht (by omega) hx (by omega) hy (Prod.mk.inj heq).2)
    · intro o ho heq
      obtain ⟨o, -, rfl⟩ := List.mem_map.mp ho
      simp at heq
  · rw [patchAdditions_of_not_keeps hlaid hin hkeeps, if_neg]
    · rfl
    · rintro ⟨rfl, -⟩
      exact hkeeps ht

theorem sum_map_ite {α : Type} (l : List α) (P : α → Prop) [DecidablePred P] (f : α → BitVec 64) :
    (l.map fun a => if P a then f a else 0).sum = ((l.filter fun a => P a).map f).sum := by
  induction l with
  | nil => rfl
  | cons a l ih =>
    rw [List.map_cons, List.sum_cons, ih, List.filter_cons]
    by_cases h : P a <;> simp [h]

section Patches

variable {patches : List (Patch F)} {additions : List Addition}

/-- The terms of the patches that cover a pixel. -/
def weightedSum (floats : Floats F) (block : Nat) (patches : List (Patch F)) (t : Int) (y x : Nat) : BitVec 64 :=
  ((patches.filter fun p => p.Covers block t y x).map fun p => p.term floats y x).sum

/-- The weights of the patches that cover a pixel. -/
def weightSum (floats : Floats F) (block : Nat) (patches : List (Patch F)) (t : Int) (y x : Nat) : BitVec 64 :=
  ((patches.filter fun p => p.Covers block t y x).map fun p => toFixed floats p.weight).sum

/-- Whatever the order of the additions, a cell has what each patch adds to it. -/
theorem runAdditions_apply (horder : additions.Perm (patches.flatMap (patchAdditions floats target block)))
    (k : Sums × Int) : runAdditions additions (fun _ => 0) k =
      (patches.map fun p => (sent k (patchAdditions floats target block p)).sum).sum := by
  have hsent : (sent k additions).Perm (sent k (patches.flatMap (patchAdditions floats target block))) :=
    (horder.filter _).map _
  calc runAdditions additions (fun _ => 0) k
      = (sent k additions).sum := by rw [runAdditions, foldl_post, ← List.sum_eq_foldl]
    _ = (sent k (patches.flatMap (patchAdditions floats target block))).sum := hsent.sum_eq
    _ = (patches.map fun p => (sent k (patchAdditions floats target block p)).sum).sum := by
      rw [sent_flatMap, List.flatMap, List.sum_flatten, List.map_map]
      rfl

theorem num_cell (hlaid : target.Laid width height)
    (hin : ∀ p ∈ patches, p.Inside target block width height)
    (horder : additions.Perm (patches.flatMap (patchAdditions floats target block)))
    (ht : target.Keeps t) (hx : x < width) (hy : y < height) :
    runAdditions additions (fun _ => 0) (.num, pixelCell target t y x) =
      weightedSum floats block patches t y x := by
  rw [runAdditions_apply horder, weightedSum, ← sum_map_ite]
  congr 1
  exact List.map_congr_left fun p hp => sent_num hlaid (hin p hp) ht hx hy

theorem den_cell (hlaid : target.Laid width height) (hblock : 0 < block)
    (hin : ∀ p ∈ patches, p.Inside target block width height)
    (horder : additions.Perm (patches.flatMap (patchAdditions floats target block)))
    (ht : target.Keeps t) (hx : x < width) (hy : y < height) :
    runAdditions additions (fun _ => 0) (.den, pixelCell target t y x) =
      (patches.map fun p => if p.t = t ∧ p.y = y ∧ p.x = x then toFixed floats p.weight else 0).sum := by
  rw [runAdditions_apply horder]
  congr 1
  exact List.map_congr_left fun p hp => sent_den hlaid hblock (hin p hp) ht hx hy

/-! ## The weight of a pixel -/

theorem foldl_add_range (n : Nat) (f : Nat → BitVec 64) :
    (List.range n).foldl (fun sum j => sum + f j) 0 = ∑ j ∈ Finset.range n, f j := by
  induction n with
  | zero => rfl
  | succ n ih => rw [List.range_succ, List.foldl_append, ih, Finset.sum_range_succ]; rfl

/-- The sum over the corners whose patches cover a pixel. -/
def cornerSum (block : Nat) (f : Nat → Nat → BitVec 64) (y x : Nat) : BitVec 64 :=
  ∑ k ∈ Finset.range (min block (y + 1)), ∑ j ∈ Finset.range (min block (x + 1)), f (y - k) (x - j)

theorem cornerSum_add (f g : Nat → Nat → BitVec 64) :
    cornerSum block (fun y x => f y x + g y x) y x = cornerSum block f y x + cornerSum block g y x := by
  unfold cornerSum
  simp only [Finset.sum_add_distrib]

/-- A corner counts once, where its patch covers the pixel. -/
theorem cornerSum_single (y₀ x₀ : Nat) (w : BitVec 64) :
    cornerSum block (fun y x => if y₀ = y ∧ x₀ = x then w else 0) y x =
      if (y₀ ≤ y ∧ y < y₀ + block) ∧ x₀ ≤ x ∧ x < x₀ + block then w else 0 := by
  unfold cornerSum
  by_cases hcovers : (y₀ ≤ y ∧ y < y₀ + block) ∧ x₀ ≤ x ∧ x < x₀ + block
  · rw [if_pos hcovers, Finset.sum_eq_single (y - y₀), Finset.sum_eq_single (x - x₀)]
    · exact if_pos (by omega)
    · intro j hj hne
      rw [Finset.mem_range] at hj
      exact if_neg (by omega)
    · intro hj
      rw [Finset.mem_range] at hj
      omega
    · intro k hk hne
      rw [Finset.mem_range] at hk
      exact Finset.sum_eq_zero fun j _ => if_neg (by omega)
    · intro hk
      rw [Finset.mem_range] at hk
      omega
  · rw [if_neg hcovers]
    refine Finset.sum_eq_zero fun k hk => Finset.sum_eq_zero fun j hj => ?_
    rw [Finset.mem_range] at hk hj
    exact if_neg (by omega)

theorem cornerSum_corners : cornerSum block (fun y x =>
      (patches.map fun p => if p.t = t ∧ p.y = y ∧ p.x = x then toFixed floats p.weight else 0).sum) y x =
    weightSum floats block patches t y x := by
  rw [weightSum, ← sum_map_ite]
  induction patches with
  | nil =>
    unfold cornerSum
    simp
  | cons p patches ih =>
    simp only [List.map_cons, List.sum_cons, cornerSum_add, ih]
    congr 1
    by_cases ht : p.t = t
    · simp only [ht, true_and, Patch.Covers]
      exact cornerSum_single p.y p.x _
    · unfold cornerSum Patch.Covers
      simp [ht]

theorem mem_threads {o : Nat × Nat} : o ∈ threads width height ↔ o.1 < width ∧ o.2 < height := by
  unfold threads
  rw [List.mem_filter, decide_eq_true_eq]
  refine and_iff_right_of_imp fun ⟨hx, hy⟩ => ?_
  simp only [List.mem_flatMap, List.mem_map, List.mem_range]
  exact ⟨o.2 / 8, by omega, o.1 / 32, by omega, o.2 % 8, by omega, o.1 % 32, by omega,
    Prod.ext (by dsimp only; omega) (by dsimp only; omega)⟩

/-- A launch with one thread for each pixel, in any order. -/
theorem launch_apply {α : Type} {pitch : Nat} {order : List (Nat × Nat)} (hrow : width ≤ pitch)
    (horder : order.Perm (threads width height)) (f : Nat → Nat → α) (m : Nat → α) (hx : x < width)
    (hy : y < height) : storeAll (order.map fun o => (o.2 * pitch + o.1, f o.2 o.1)) m (y * pitch + x) = f y x := by
  have hat : ∀ {x y : Nat}, x < width → (y * pitch + x) / pitch = y ∧ (y * pitch + x) % pitch = x := by
    intro x y hx
    rw [Nat.mul_comm, Nat.mul_add_div (by omega), Nat.mul_add_mod, Nat.div_eq_of_lt (by omega),
      Nat.mod_eq_of_lt (by omega)]
    exact ⟨rfl, rfl⟩
  rw [storeAll_of_mem fun i => f (i / pitch) (i % pitch), (hat hx).1, (hat hx).2]
  · intro s hs
    obtain ⟨o, ho, rfl⟩ := List.mem_map.mp hs
    have hmem := mem_threads.mp (horder.mem_iff.mp ho)
    dsimp only
    rw [(hat hmem.1).1, (hat hmem.1).2]
  · rw [List.map_map, List.mem_map]
    exact ⟨(x, y), horder.mem_iff.mpr (mem_threads.mpr ⟨hx, hy⟩), rfl⟩

theorem finishWeight_rows {pitch : Nat} {order : List (Nat × Nat)} (hrow : width ≤ pitch)
    (horder : order.Perm (threads width height)) (corner rows : Nat → BitVec 64) (hx : x < width)
    (hy : y < height) : finishWeight block (fixedRowsKernel block corner pitch order rows) pitch x y =
      cornerSum block (fun y x => corner (y * pitch + x)) y x := by
  unfold finishWeight cornerSum
  rw [foldl_add_range]
  refine Finset.sum_congr rfl fun k hk => ?_
  rw [Finset.mem_range] at hk
  have hat : y * pitch + x - k * pitch = (y - k) * pitch + x := by
    have hle : k * pitch ≤ y * pitch := Nat.mul_le_mul_right _ (by omega)
    rw [Nat.sub_mul]
    omega
  have hlaunch := launch_apply hrow horder (fun y x => fixedRow block corner pitch x y) rows hx
    (show y - k < height by omega)
  rw [hat, fixedRowsKernel, hlaunch, fixedRow, foldl_add_range]
  refine Finset.sum_congr rfl fun j hj => ?_
  rw [Finset.mem_range] at hj
  rw [Nat.add_sub_assoc (by omega)]

/-- The cells have exact sums, whatever the order of the additions and of the threads. -/
theorem fixed_aggregation (hlaid : target.Laid width height) (hblock : 0 < block)
    (hin : ∀ p ∈ patches, p.Inside target block width height)
    (horder : additions.Perm (patches.flatMap (patchAdditions floats target block))) :
    let cells := runAdditions additions fun _ => 0
    let plane := fun (sums : Sums) (t : Int) (i : Nat) => cells (sums, fixedSlice target t * target.sliceStep + i)
    (∀ t, target.Keeps t → ∀ y < height, ∀ x < width,
      plane .num t (y * target.pitch + x) = weightedSum floats block patches t y x ∧
      ∀ order order' : List (Nat × Nat), order.Perm (threads width height) →
        order'.Perm (threads width height) → ∀ (rows : Nat → BitVec 64) (src out : Nat → F),
          let rows' := fixedRowsKernel block (plane .den t) target.pitch order rows
          let weight := weightSum floats block patches t y x
          let num := floats.mul (floats.ofInt (weightedSum floats block patches t y x).toInt) floats.kUnit
          let den := floats.mul (floats.ofInt weight.toInt) floats.kUnit
          finishWeight block rows' target.pitch x y = weight ∧
          fixedFinishKernel floats block (plane .num t) rows' src target.pitch order' out
              (y * target.pitch + x) =
            if floats.positive den then floats.div num den else src (y * target.pitch + x)) ∧
    (∀ p : Patch F, p.Inside target block width height → ¬ target.Keeps p.t →
      patchAdditions floats target block p = []) ∧
    (∀ t, target.Keeps t → 0 ≤ fixedSlice target t ∧ fixedSlice target t < target.sliceRing) ∧
    ∀ t t', target.Keeps t → target.Keeps t' → fixedSlice target t = fixedSlice target t' → t = t' := by
  intro cells plane
  refine ⟨fun t ht y hy x hx => ?_, fun p => patchAdditions_of_not_keeps hlaid,
    fun t => fixedSlice_bounds hlaid, fun t t' => fixedSlice_inj hlaid⟩
  have hnum : plane .num t (y * target.pitch + x) = weightedSum floats block patches t y x :=
    num_cell hlaid hin horder ht hx hy
  refine ⟨hnum, fun order order' horder₁ horder₂ rows src out => ?_⟩
  have hweight : finishWeight block (fixedRowsKernel block (plane .den t) target.pitch order rows)
      target.pitch x y = weightSum floats block patches t y x := by
    rw [finishWeight_rows hlaid.row horder₁ _ _ hx hy, ← cornerSum_corners]
    unfold cornerSum
    refine Finset.sum_congr rfl fun k _ => Finset.sum_congr rfl fun j _ => ?_
    exact den_cell hlaid hblock hin horder ht (by omega) (by omega)
  refine ⟨hweight, ?_⟩
  have hlaunch := launch_apply hlaid.row horder₂ (fun y x =>
    let weight := finishWeight block (fixedRowsKernel block (plane .den t) target.pitch order rows) target.pitch x y
    let num := floats.mul (floats.ofInt (plane .num t (y * target.pitch + x)).toInt) floats.kUnit
    let den := floats.mul (floats.ofInt weight.toInt) floats.kUnit
    if floats.positive den then floats.div num den else src (y * target.pitch + x)) out hx hy
  dsimp only at hlaunch ⊢
  rw [hweight, hnum] at hlaunch
  exact hlaunch

end Patches

/-- Integers for floats, in units of `2^-32`. -/
def wholeFloats : Floats Int where
  mul := (· * ·)
  div := (· / ·)
  kFixedScale := 2 ^ 32
  float2llRn := id
  ofInt := id
  kUnit := 1
  positive v := 0 < v

/-- Two slices in a ring of three cells. -/
def smallTarget : FixedTarget :=
  { pitch := 4, sliceStep := 8, sliceBase := 1, slices := 2, sliceFirst := 2, sliceRing := 3 }

/-- Two patches that overlap, and one of a slot without a slice. -/
def smallPatches : List (Patch Int) :=
  [{ t := 0, y := 0, x := 0, weight := 3, value := fun row col => row - col },
    { t := 0, y := 0, x := 1, weight := 2, value := fun row col => row + 5 * col },
    { t := 4, y := 0, x := 0, weight := 7, value := fun _ _ => 1 }]

theorem smallTarget_laid : smallTarget.Laid 3 2 := by
  constructor <;> decide

theorem smallPatches_inside : ∀ p ∈ smallPatches, p.Inside smallTarget 2 3 2 := by
  intro p hp
  simp only [smallPatches, List.mem_cons, List.not_mem_nil, or_false] at hp
  rcases hp with rfl | rfl | rfl <;> constructor <;> decide

theorem fixed_aggregation_reversed :
    (runAdditions (smallPatches.flatMap (patchAdditions wholeFloats smallTarget 2)).reverse (fun _ => 0)
      (.num, pixelCell smallTarget 0 1 1) = (3 * 0 + 2 * 1) * 2 ^ 32) ∧
    weightSum wholeFloats 2 smallPatches 0 1 1 = (3 + 2) * 2 ^ 32 := by
  have h := fixed_aggregation smallTarget_laid (by decide) smallPatches_inside
    (List.reverse_perm (smallPatches.flatMap (patchAdditions wholeFloats smallTarget 2)))
  refine ⟨(h.1 0 (by constructor <;> decide) 1 (by decide) 1 (by decide)).1.trans (by decide), by decide⟩

end NssFactory.Cuda.FixedAggregate
