import Mathlib
import NssFactory.Cuda.Da3dSelect
import NssFactory.Lib.Numerals

/-!
# The patch loop of CUDA DA3D

`da3d_tile_kernel` filters the pixel of least weight until every weight of the core has reached
the threshold. The weights that a patch adds are squares of `k`, which `fastexp` makes of the
guide less the plane of the regression; here they are computed from the planes as the kernel does,
with the arithmetic of floats left open.

`Regular` says of a pixel that the guide there is finite and so is the plane. Then `k` is one at
the pixel and its weight rises; otherwise `fastexp` is handed a NaN or an infinity everywhere,
the patch adds nothing, and the kernel filters the same pixel for ever.
-/

namespace NssFactory.Cuda.Da3d

open NssFactory.Da3d (Patch)
open Shuffles

/-! ## The weights of a patch -/

/-- Floats, and the weights among them. A comparison with a NaN is false. -/
structure Floats (F W : Type) where
  lit : ℚ → F
  ofInt : Int → F
  ofWeight : W → F
  neg : F → F
  abs : F → F
  add : F → F → F
  sub : F → F → F
  mul : F → F → F
  div : F → F → F
  fma : F → F → F → F
  lt : F → F → Bool
  toInt : F → Int
  ofBits : Int → W
  kDa3dThreshold : W

/-- `tile_start`; the product is a `long long`. -/
def tileStart (n count i : Int) : Int := (n * i).tdiv count

/-- A tile of a unit. -/
structure Tile (F : Type) where
  channels : Nat
  height : Int
  width : Int
  rowsT : Int
  colsT : Int
  tr : Int
  tc : Int
  noisy : Nat → Int → F
  guide : Nat → Int → F
  sigma2 : F

namespace Tile

variable {F : Type} (t : Tile F)

def r0 : Int := tileStart t.height t.rowsT t.tr

def c0 : Int := tileStart t.width t.colsT t.tc

/-- `core_h` -/
def coreH : Nat := (tileStart t.height t.rowsT (t.tr + 1) - t.r0).toNat

/-- `core_w` -/
def coreW : Nat := (tileStart t.width t.colsT (t.tc + 1) - t.c0).toNat

/-- The threads of a block. -/
def threads : Nat := if t.channels = 1 then 256 else 512

end Tile

/-- `symmetric` -/
def symmetric (pos size : Int) : Int :=
  let pos := if pos < 0 then -pos - 1 else pos
  let pos := if 2 * size ≤ pos then pos.tmod (2 * size) else pos
  if size ≤ pos then 2 * size - 1 - pos else pos

/-- Element `i` of a patch, counted from its center. -/
def dr (i : Nat) : Int := (i / 64 : Nat) - 31

def dcol (i : Nat) : Int := (i % 64 : Nat) - 31

def kCenter : Nat := 31 * 64 + 31

section Patch

variable {F W : Type} [Zero W] (o : Floats F W) (t : Tile F) (p : Nat × Nat)

/-- An element of the patch around core pixel `p`, in a plane. -/
def load (plane : Nat → Int → F) (c i : Nat) : F :=
  let x0 := t.c0 - 31 + p.2
  let y0 := t.r0 - 31 + p.1
  let inside := 0 ≤ x0 ∧ 0 ≤ y0 ∧ x0 + 64 ≤ t.width ∧ y0 + 64 ≤ t.height
  let sx := if inside then x0 + (i % 64 : Nat) else symmetric (x0 + (i % 64 : Nat)) t.width
  let sy := if inside then y0 + (i / 64 : Nat) else symmetric (y0 + (i / 64 : Nat)) t.height
  plane c (sy * t.width + sx)

/-- `fastexp` -/
def fastexp (x : F) : W :=
  let u := o.mul (o.lit 12102203) x
  if o.lt (o.lit (-1065353216)) u then
    let bits := o.toInt u + 1065353216
    if bits ≤ 0 then 0 else o.ofBits bits
  else 0

/-- The squares over the channels. -/
def squares (g : Nat → Nat → F) (i : Nat) : F :=
  let first := o.sub (g 0 i) (g 0 kCenter)
  (List.range (t.channels - 1)).foldl (fun x c =>
    let e := o.sub (g (c + 1) i) (g (c + 1) kCenter)
    o.fma e e x) (o.mul first first)

/-- `k` of the guide `g`; `area` is what the squared distance to the center is divided by. -/
def kernelWeight (g : Nat → Nat → F) (inv : F) (area : ℚ) (i : Nat) : W :=
  let dist := o.div (o.ofInt (dr i * dr i + dcol i * dcol i)) (o.lit area)
  fastexp o (o.neg (o.fma (squares o t g i) inv dist))

/-- `inv_k` -/
def invK : F := o.div (o.lit 1) (o.mul (o.lit (7 / 10)) t.sigma2)

/-- `inv_reg` -/
def invReg : F := o.div (o.lit 1) (o.mul (o.mul (o.lit (7 / 10)) t.sigma2) (o.lit 10))

/-- `k_reg` -/
def kReg (i : Nat) : W := kernelWeight o t (load t p t.guide) (invReg o t) 784 i

/-- A sum over the block: each thread's terms, the warps by shuffles, their partials in order. -/
def blockSum (a b : Nat → F) : F :=
  let own := fun thread => (List.range (4096 / t.threads)).foldl
    (fun s k => o.fma (a (thread + t.threads * k)) (b (thread + t.threads * k)) s) (o.lit 0)
  let part := fun w => shuffled o.add Shuffles.warp (fun lane => own (32 * w + lane)) 0
  (List.range (t.threads / 32 - 1)).foldl (fun s w => o.add s (part (w + 1))) (part 0)

/-- A sum of the regression. -/
def regression (a : Nat → F) : F := blockSum o t a fun i => o.ofWeight (kReg o t p i)

def sumA : F := regression o t p fun i => o.ofInt (dr i * dr i)

def sumB : F := regression o t p fun i => o.ofInt (dr i * dcol i)

def sumC : F := regression o t p fun i => o.ofInt (dcol i * dcol i)

/-- The noisy patch less the guide at the center. -/
def centered (c i : Nat) : F := o.sub (load t p t.noisy c i) (load t p t.guide c kCenter)

def sumD (c : Nat) : F := regression o t p fun i => o.mul (o.ofInt (dr i)) (centered o t p c i)

def sumE (c : Nat) : F := regression o t p fun i => o.mul (o.ofInt (dcol i)) (centered o t p c i)

def det : F := o.sub (o.mul (sumA o t p) (sumC o t p)) (o.mul (sumB o t p) (sumB o t p))

/-- Whether there is a plane. -/
def fit : Bool := !o.lt (o.abs (det o t p)) (o.lit (1 / 10000))

def slopeR (c : Nat) : F :=
  if fit o t p then
    o.div (o.sub (o.mul (sumC o t p) (sumD o t p c)) (o.mul (sumB o t p) (sumE o t p c))) (det o t p)
  else o.ofInt 0

def slopeC (c : Nat) : F :=
  if fit o t p then
    o.div (o.sub (o.mul (sumA o t p) (sumE o t p c)) (o.mul (sumB o t p) (sumD o t p c))) (det o t p)
  else o.ofInt 0

/-- The plane subtracted from the guide. -/
def flat (c i : Nat) : F :=
  o.sub (load t p t.guide c i)
    (o.fma (slopeC o t p c) (o.ofInt (dcol i)) (o.mul (slopeR o t p c) (o.ofInt (dr i))))

/-- `k` -/
def k (i : Nat) : W := kernelWeight o t (flat o t p) (invK o t) 392 i

/-- The patch that the weight map gains. -/
def patchOf [Mul W] : Patch W := ⟨p.1, p.2, fun i => k o t p i * k o t p i⟩

end Patch

/-! ## The loop -/

section Loop

variable {F W : Type} [LinearOrder W] [OrderTop W] [AddZeroClass W] [Mul W] (o : Floats F W) (t : Tile F)
  (order : Nat → List Nat)

/-- A round of the loop: the pixel it filters, none where it stops. -/
def round (s : Pyramid W) : Option (Option (Nat × Nat) × Pyramid W) := do
  let (choice, s) ← select o.kDa3dThreshold s
  if choice.go then do
    let s ← update order (patchOf o t choice.pixel) s
    some (some choice.pixel, s)
  else some (none, s)

/-- The loop from a state on, if `fuel` rounds are enough. -/
def loop : Nat → Pyramid W → Option (Pyramid W)
  | 0, _ => none
  | fuel + 1, s => (round o t order s).bind fun r =>
    match r with
    | (some _, s) => loop fuel s
    | (none, s) => some s

/-- The state after `n` rounds that go on. -/
def rounds : Nat → Pyramid W → Option (Pyramid W)
  | 0, s => some s
  | n + 1, s => (round o t order s).bind fun r =>
    match r with
    | (some _, s) => rounds n s
    | (none, _) => none

/-- The kernel's run of a tile filters `p` in a round from `s` to `s'`. -/
def Filters (p : Nat × Nat) (s s' : Pyramid W) : Prop :=
  (∃ n, rounds o t order n (start t.coreH t.coreW) = some s) ∧ round o t order s = some (some p, s')

end Loop

/-! ## What floats do

A float is `finite`, one of the two zeros, `nonneg` when it is no number below zero, `large` when it
is a NaN or `+inf`. The first laws are about finite floats, the next about the others, the last
about weights. -/

structure Floats.Ieee {F W : Type} [LinearOrder W] [Zero W] [One W] [Add W] [Mul W] (o : Floats F W)
    (finite zero nonneg large : F → Prop) : Prop where
  finite_of_zero : ∀ {x}, zero x → finite x
  zero_ofInt : zero (o.ofInt 0)
  zero_sub_self : ∀ {x}, finite x → zero (o.sub x x)
  zero_mul : ∀ {x y}, finite x → zero y → zero (o.mul x y)
  zero_fma : ∀ {x y z}, zero x → finite y → zero z → zero (o.fma x y z)
  zero_fma' : ∀ {x y z}, finite x → zero y → zero z → zero (o.fma x y z)
  zero_div : ∀ {x}, zero x → zero (o.div x (o.lit 392))
  zero_neg : ∀ {x}, zero x → zero (o.neg x)
  finite_sub_zero : ∀ {x y}, finite x → zero y → finite (o.sub x y)
  finite_scale : finite (o.lit 12102203)
  lt_zero : ∀ {x}, zero x → o.lt (o.lit (-1065353216)) x = true
  toInt_zero : ∀ {x}, zero x → o.toInt x = 0
  sub_left : ∀ {x y}, ¬finite x → ¬finite (o.sub x y)
  sub_right : ∀ {x y}, ¬finite y → ¬finite (o.sub x y)
  mul_zero : ∀ {x y}, ¬finite x → zero y → ¬finite (o.mul x y)
  fma_zero : ∀ {x y z}, ¬finite x → zero y → ¬finite (o.fma x y z)
  fma_right : ∀ {x y z}, ¬finite z → ¬finite (o.fma x y z)
  nonneg_sq : ∀ x, nonneg (o.mul x x)
  nonneg_fma_sq : ∀ x {z}, nonneg z → nonneg (o.fma x x z)
  large_sq : ∀ {x}, ¬finite x → large (o.mul x x)
  large_fma_sq : ∀ {x z}, ¬finite x → nonneg z → large (o.fma x x z)
  large_fma_right : ∀ x {z}, large z → large (o.fma x x z)
  large_fma : ∀ {x y} z, large x → nonneg y → large (o.fma x y z)
  lt_large : ∀ {x}, large x → o.lt (o.lit (-1065353216)) (o.mul (o.lit 12102203) (o.neg x)) = false
  one_bits : o.ofBits 1065353216 = 1
  one_mul_one : (1 : W) * 1 = 1
  zero_mul_zero : (0 : W) * 0 = 0
  le_add : ∀ a b : W, a ≤ a + b
  lt_add_one : ∀ {a : W}, a < o.kDa3dThreshold → a < a + 1
  one_le : ∀ a : W, 1 ≤ a + 1
  threshold_le : ∀ {a : W}, 1 ≤ a → o.kDa3dThreshold ≤ a + 1

section Weights

variable {F W : Type} [LinearOrder W] [AddZeroClass W] [One W] [Mul W] {o : Floats F W} {t : Tile F}
  {finite zero nonneg large : F → Prop} {p : Nat × Nat} {g : Nat → Nat → F} {i : Nat}

variable (o t finite) in
/-- Where the guide is finite and the plane through it as well. -/
def Regular (p : Nat × Nat) : Prop :=
  ∀ c < t.channels, finite (load t p t.guide c kCenter) ∧ finite (slopeR o t p c) ∧ finite (slopeC o t p c)

theorem zero_squares (ho : o.Ieee finite zero nonneg large) (hchannels : 1 ≤ t.channels)
    (hg : ∀ c < t.channels, finite (g c kCenter)) : zero (squares o t g kCenter) := by
  have hself : ∀ c < t.channels, zero (o.sub (g c kCenter) (g c kCenter)) := fun c hc => ho.zero_sub_self (hg c hc)
  have hfold : ∀ l : List Nat, (∀ c ∈ l, c + 1 < t.channels) → ∀ x, zero x →
      zero (l.foldl (fun x c => o.fma (o.sub (g (c + 1) kCenter) (g (c + 1) kCenter))
        (o.sub (g (c + 1) kCenter) (g (c + 1) kCenter)) x) x) := by
    intro l
    induction l with
    | nil => exact fun _ x hx => hx
    | cons c l ih =>
      intro hl x hx
      have he := hself (c + 1) (hl c List.mem_cons_self)
      exact ih (fun c' hc' => hl c' (List.mem_cons_of_mem _ hc')) _
        (ho.zero_fma he (ho.finite_of_zero he) hx)
  have he := hself 0 (by omega)
  exact hfold _ (fun c hc => by have := List.mem_range.mp hc; omega) _ (ho.zero_mul (ho.finite_of_zero he) he)

theorem large_squares (ho : o.Ieee finite zero nonneg large) (hg : ∃ c < t.channels, ¬finite (g c kCenter)) (i : Nat) :
    large (squares o t g i) := by
  have hdiff : ∀ c, ¬finite (g c kCenter) → ¬finite (o.sub (g c i) (g c kCenter)) := fun c hc => ho.sub_right hc
  have hfold : ∀ l : List Nat, ∀ x, nonneg x → (large x ∨ ∃ c ∈ l, ¬finite (g (c + 1) kCenter)) →
      large (l.foldl (fun x c => o.fma (o.sub (g (c + 1) i) (g (c + 1) kCenter))
        (o.sub (g (c + 1) i) (g (c + 1) kCenter)) x) x) := by
    intro l
    induction l with
    | nil =>
      rintro x - (hx | ⟨c, hc, -⟩)
      · exact hx
      · cases hc
    | cons c l ih =>
      intro x hx hany
      refine ih _ (ho.nonneg_fma_sq _ hx) ?_
      obtain hlarge | ⟨c', hc', hout⟩ := hany
      · exact .inl (ho.large_fma_right _ hlarge)
      · obtain rfl | hc' := List.mem_cons.mp hc'
        · exact .inl (ho.large_fma_sq (hdiff _ hout) hx)
        · exact .inr ⟨c', hc', hout⟩
  refine hfold _ _ (ho.nonneg_sq _) ?_
  obtain ⟨c, hc, hout⟩ := hg
  cases c with
  | zero => exact .inl (ho.large_sq (hdiff 0 hout))
  | succ c => exact .inr ⟨c, List.mem_range.mpr (by omega), hout⟩

theorem dr_center : dr kCenter = 0 := rfl

theorem dcol_center : dcol kCenter = 0 := rfl

/-- The guide less the plane is finite at the center where the pixel is regular, and only there. -/
theorem flat_center_iff (ho : o.Ieee finite zero nonneg large) (c : Nat) : finite (flat o t p c kCenter) ↔
    finite (load t p t.guide c kCenter) ∧ finite (slopeR o t p c) ∧ finite (slopeC o t p c) := by
  rw [flat, dr_center, dcol_center]
  constructor
  · intro hflat
    refine ⟨?_, ?_, ?_⟩
    · by_contra hguide
      exact ho.sub_left hguide hflat
    · by_contra hslope
      exact ho.sub_right (ho.fma_right (ho.mul_zero hslope ho.zero_ofInt)) hflat
    · by_contra hslope
      exact ho.sub_right (ho.fma_zero hslope ho.zero_ofInt) hflat
  · rintro ⟨hguide, hslopeR, hslopeC⟩
    exact ho.finite_sub_zero hguide (ho.zero_fma' hslopeC ho.zero_ofInt (ho.zero_mul hslopeR ho.zero_ofInt))

theorem fastexp_zero (ho : o.Ieee finite zero nonneg large) {x : F} (hx : zero x) : fastexp o x = 1 := by
  have hscaled := ho.zero_mul ho.finite_scale hx
  simp only [fastexp, ho.lt_zero hscaled, ho.toInt_zero hscaled, Int.zero_add, if_true, ho.one_bits]
  exact if_neg (by decide)

/-- A regular pixel has weight one in its own patch. -/
theorem k_center (ho : o.Ieee finite zero nonneg large) (hchannels : 1 ≤ t.channels) (hinv : finite (invK o t))
    (hp : Regular o t finite p) : k o t p kCenter = 1 := by
  have hsquares : zero (squares o t (flat o t p) kCenter) :=
    zero_squares ho hchannels fun c hc => (flat_center_iff ho c).mpr (hp c hc)
  have hdist : zero (o.div (o.ofInt (dr kCenter * dr kCenter + dcol kCenter * dcol kCenter)) (o.lit 392)) :=
    ho.zero_div ho.zero_ofInt
  exact fastexp_zero ho (ho.zero_neg (ho.zero_fma hsquares hinv hdist))

/-- The patch of any other pixel weighs nothing. -/
theorem k_irregular (ho : o.Ieee finite zero nonneg large) (hinv : nonneg (invK o t)) (hp : ¬Regular o t finite p)
    (i : Nat) : k o t p i = 0 := by
  have hout : ∃ c < t.channels, ¬finite (flat o t p c kCenter) := by
    by_contra hall
    refine hp fun c hc => (flat_center_iff ho c).mp ?_
    by_contra hflat
    exact hall ⟨c, hc, hflat⟩
  have hlarge := ho.large_fma (o.div (o.ofInt (dr i * dr i + dcol i * dcol i)) (o.lit 392))
    (large_squares ho hout i) hinv
  rw [k, kernelWeight, fastexp]
  exact if_neg (by rw [ho.lt_large hlarge]; exact Bool.false_ne_true)

end Weights

/-! ## What is left to do -/

section Progress

open NssFactory.Da3d (padded added Tree Square)
open MinTree (least descend)

variable {F W : Type} [LinearOrder W] [OrderTop W] [AddZeroClass W] [One W] [Mul W] {o : Floats F W} {t : Tile F}
  {finite zero nonneg large : F → Prop} {p : Nat × Nat} {h w i j : Nat} {weight : Nat → Nat → W}

variable (o) in
/-- How often a pixel of weight `x` may still be filtered. -/
def need (x : W) : Nat := if o.kDa3dThreshold ≤ x then 0 else if 1 ≤ x then 1 else 2

variable (o h w) in
def needs (weight : Nat → Nat → W) : Nat := ∑ x ∈ Finset.range h ×ˢ Finset.range w, need o (weight x.1 x.2)

omit [OrderTop W] [AddZeroClass W] [Mul W] in
theorem need_anti {x y : W} (hle : x ≤ y) : need o y ≤ need o x := by
  by_cases hx : o.kDa3dThreshold ≤ x
  · rw [need, if_pos (hx.trans hle)]
    exact Nat.zero_le _
  · rw [need, need, if_neg hx]
    by_cases hone : 1 ≤ x
    · rw [if_pos hone, if_pos (hone.trans hle)]
      split_ifs <;> decide
    · rw [if_neg hone]
      split_ifs <;> decide

omit [OrderTop W] in
theorem need_add_one (ho : o.Ieee finite zero nonneg large) {x : W} (hlow : x < o.kDa3dThreshold) :
    need o (x + 1) < need o x := by
  rw [need, need, if_neg (not_le.mpr hlow)]
  by_cases hone : 1 ≤ x
  · rw [if_pos (ho.threshold_le hone), if_pos hone]
    exact Nat.zero_lt_one
  · rw [if_neg hone]
    split_ifs with h₀ h₁
    · exact Nat.zero_lt_two
    · exact Nat.one_lt_two
    · exact absurd (ho.one_le x) h₁

omit [OrderTop W] in
/-- No patch lowers a weight. -/
theorem le_added (ho : o.Ieee finite zero nonneg large) (q : Patch W) (i j : Nat) :
    weight i j ≤ added q weight i j := by
  rw [added]
  split_ifs
  · exact ho.le_add _ _
  · exact le_refl _

omit [LinearOrder W] [OrderTop W] [One W] in
/-- The weight of the pixel that was filtered. -/
theorem added_center : added (patchOf o t p) weight p.1 p.2 = weight p.1 p.2 + k o t p kCenter * k o t p kCenter := by
  have hindex : (p.1 + 31 - p.1) * 64 + (p.2 + 31 - p.2) = kCenter := by
    simp only [kCenter]
    omega
  rw [added]
  simp only [patchOf, hindex]
  exact if_pos (by omega)

omit [OrderTop W] in
/-- A regular pixel that is chosen gains weight. -/
theorem added_regular (ho : o.Ieee finite zero nonneg large) (hchannels : 1 ≤ t.channels) (hinv : finite (invK o t))
    (hp : Regular o t finite p) : added (patchOf o t p) weight p.1 p.2 = weight p.1 p.2 + 1 := by
  rw [added_center, k_center ho hchannels hinv hp, ho.one_mul_one]

omit [OrderTop W] in
/-- Filtering any other pixel changes no weight. -/
theorem added_irregular (ho : o.Ieee finite zero nonneg large) (hinv : nonneg (invK o t)) (hp : ¬Regular o t finite p) :
    added (patchOf o t p) weight = weight := by
  funext i j
  rw [added]
  split_ifs
  · simp only [patchOf, k_irregular ho hinv hp, ho.zero_mul_zero, add_zero]
  · rfl

omit [OrderTop W] in
/-- After a regular pixel there is less to do. -/
theorem needs_lt (ho : o.Ieee finite zero nonneg large) (hchannels : 1 ≤ t.channels) (hinv : finite (invK o t))
    (hp : Regular o t finite p) (hrow : p.1 < h) (hcol : p.2 < w) (hlow : weight p.1 p.2 < o.kDa3dThreshold) :
    needs o h w (added (patchOf o t p) weight) < needs o h w weight := by
  refine Finset.sum_lt_sum (fun x _ => need_anti (le_added ho _ _ _)) ⟨p, ?_, ?_⟩
  · simp [hrow, hcol]
  · rw [added_regular ho hchannels hinv hp]
    exact need_add_one ho hlow

/-! ### The choice -/

omit [OrderTop W] [AddZeroClass W] [One W] [Mul W] in
/-- Every weight stands in some map. -/
theorem exists_tree (h w : Nat) (leaf : Nat → Nat → W) : ∃ m, Tree h w leaf m := by
  refine ⟨⟨Da3d.levelCount h w, w, h, _, _, fun l i => least leaf l (i / Da3d.side (Da3d.nextPow2 w) l)
    (i % Da3d.side (Da3d.nextPow2 w) l)⟩, ⟨rfl, rfl, rfl, rfl, rfl⟩, fun l _ r hr c hc => ?_⟩
  rw [Da3d.entry_eq hr hc]
  have hc : c < Da3d.side (Da3d.nextPow2 w) l := hc
  simp only [Nat.mul_comm r, Nat.mul_add_div (Nat.zero_lt_of_lt hc), Nat.div_eq_of_lt hc, Nat.mul_add_mod,
    Nat.mod_eq_of_lt hc, Nat.add_zero]

omit [AddZeroClass W] [One W] [Mul W] in
/-- The pixel chosen lies in the core and has the least weight. -/
theorem choiceOf_spec (threshold : W) (hsquare : Square h w) (hh : h ≤ 2 ^ 31) (hw : w ≤ 2 ^ 31)
    (weight : Nat → Nat → W) :
    ∃ q, (choiceOf threshold h w (padded h w weight)).pixel = q ∧ q.1 < h ∧ q.2 < w ∧
      ((choiceOf threshold h w (padded h w weight)).go = true ↔ weight q.1 q.2 < threshold) ∧
      ∀ i < h, ∀ j < w, weight q.1 q.2 ≤ weight i j := by
  have hpos : 0 < h ∧ 0 < w := by
    rcases hsquare with hs | hs <;> omega
  obtain ⟨m, hm⟩ := exists_tree h w (padded h w weight)
  have hlevels : m.levels = levels h w := hm.of.levels.trans (levels_eq h w).symm
  have hone : 1 ≤ levels h w := one_le_levels
  obtain ⟨-, hrow, hcol⟩ := hm.descend hsquare hh hw (q := (0, 0)) (l := levels h w - 1) (by omega) (by omega)
    (by omega)
  obtain ⟨-, hvalue⟩ := MinTree.descend_spec (padded h w weight) (levels h w - 1) (0, 0)
  rw [padded, if_pos ⟨hrow, hcol⟩] at hvalue
  refine ⟨_, rfl, hrow, hcol, ?_, fun i hi j hj => ?_⟩
  · rw [choiceOf, decide_eq_true_eq, hvalue]
  · have hunder : MinTree.Under (levels h w - 1) 0 0 i j := by
      obtain ⟨hi', hj'⟩ := Da3d.lt_two_pow_levels hi hj
      rw [← levels_eq] at hi' hj'
      exact ⟨Nat.div_eq_of_lt hi', Nat.div_eq_of_lt hj'⟩
    have hle := MinTree.le_least_iff.mp (le_refl (least (padded h w weight) (levels h w - 1) 0 0)) i j hunder
    rw [padded, if_pos ⟨hi, hj⟩] at hle
    exact hvalue.trans_le hle

end Progress

/-! ## Runs of the loop -/

section Runs

open NssFactory.Da3d (padded added weights Holds Square Indexed)

variable {F W : Type} [LinearOrder W] [OrderTop W] [AddZeroClass W] [One W] [Mul W] {o : Floats F W} {t : Tile F}
  {finite zero nonneg large : F → Prop} {order : Nat → List Nat} {h w : Nat} {weight : Nat → Nat → W} {s : Pyramid W}

omit [AddZeroClass W] [One W] [Mul W] in
theorem Selected.pixels (hs : Selected h w (padded h w weight) s) : Holds (padded h w weight) s.map 0 := by
  have hlevels : 0 < s.map.levels := by
    rw [hs.of.levels, ← levels_eq]
    exact one_le_levels
  by_cases hfast : Fast h w
  · exact hs.fast hfast 0 hlevels (.inl rfl)
  · exact (hs.plain hfast).holds 0 hlevels

omit [AddZeroClass W] [One W] [Mul W] [LinearOrder W] in
/-- A pixel of the core in level `0`. -/
theorem pixel_eq [LinearOrder W] [OrderTop W] {m : Da3d.WeightMap W} {i j : Nat} (ho : Da3d.Of h w m)
    (hm : Holds (padded h w weight) m 0) (hi : i < h) (hj : j < w) : m.entry 0 i j = some (weight i j) := by
  have hle := Da3d.le_nextPow2 h
  have hle' := Da3d.le_nextPow2 w
  have hentry := hm i (by rw [ho.rows, Da3d.side]; omega) j (by rw [ho.cols, Da3d.side]; omega)
  rwa [MinTree.least, padded, if_pos ⟨hi, hj⟩] at hentry

section Core

variable (horder : ∀ n, (order n).Perm (List.range n)) (hsquare : Square h w) (hh : h ≤ 2 ^ 31) (hw : w ≤ 2 ^ 31)

include horder hsquare hh hw

omit [One W] in
/-- A round filters the pixel of least weight, or finds that none is below the threshold. -/
theorem round_spec (hs : Ready h w (padded h w weight) s) :
    (∃ q s', round o t order s = some (some q, s') ∧ (q.1 < h ∧ q.2 < w) ∧ weight q.1 q.2 < o.kDa3dThreshold ∧
      Ready h w (padded h w (added (patchOf o t q) weight)) s') ∨
    ∃ s', round o t order s = some (none, s') ∧ (∀ i < h, ∀ j < w, o.kDa3dThreshold ≤ weight i j) ∧
      Selected h w (padded h w weight) s' := by
  obtain ⟨s₁, hselect, hs₁⟩ := select_spec hsquare hh hw o.kDa3dThreshold hs
  obtain ⟨q, hq, hrow, hcol, hgo, hleast⟩ := choiceOf_spec o.kDa3dThreshold hsquare hh hw weight
  by_cases hlow : weight q.1 q.2 < o.kDa3dThreshold
  · obtain ⟨s', hupdate, hs'⟩ := update_spec (p := patchOf o t q) hsquare hh hw horder hrow hcol hs₁
    refine .inl ⟨q, s', ?_, ⟨hrow, hcol⟩, hlow, hs'⟩
    simp only [round, hselect, Option.bind_eq_bind, Option.bind_some, if_pos (hgo.mpr hlow), hq, hupdate]
  · refine .inr ⟨s₁, ?_, fun i hi j hj => (not_lt.mp hlow).trans (hleast i hi j hj), hs₁⟩
    simp only [round, hselect, Option.bind_eq_bind, Option.bind_some, if_neg (mt hgo.mp hlow)]

omit [One W] in
/-- Every state that rounds lead to is ready, with some weights. -/
theorem rounds_ready {n : Nat} {s' : Pyramid W} (hs : Ready h w (padded h w weight) s)
    (hrounds : rounds o t order n s = some s') : ∃ weight', Ready h w (padded h w weight') s' := by
  induction n generalizing s weight with
  | zero =>
    cases hrounds
    exact ⟨weight, hs⟩
  | succ n ih =>
    obtain ⟨⟨q, s₁⟩, hround, hrest⟩ := Option.bind_eq_some_iff.mp hrounds
    obtain ⟨q', s₂, hround', -, -, hs₂⟩ | ⟨s₂, hround', -⟩ :=
      round_spec (o := o) (t := t) horder hsquare hh hw hs
    · cases hround.symm.trans hround'
      exact ih hs₂ hrest
    · cases hround.symm.trans hround'
      cases hrest

/-- While every pixel filtered is regular the loop ends, after as many rounds as there is to do. -/
theorem loop_ends (ho : o.Ieee finite zero nonneg large) (hchannels : 1 ≤ t.channels) (hinv : finite (invK o t))
    {n : Nat} (hs : Ready h w (padded h w weight) s) (hneeds : needs o h w weight ≤ n)
    (hregular : ∀ m q s₁ s₂, rounds o t order m s = some s₁ → round o t order s₁ = some (some q, s₂) →
      Regular o t finite q) :
    ∃ s', loop o t order (n + 1) s = some s' ∧
      ∀ i < h, ∀ j < w, ∃ v, s'.map.entry 0 i j = some v ∧ o.kDa3dThreshold ≤ v := by
  induction n generalizing s weight with
  | zero =>
    obtain ⟨q, s', hround, ⟨hrow, hcol⟩, hlow, -⟩ | ⟨s', hround, hdone, hs'⟩ :=
      round_spec (o := o) (t := t) horder hsquare hh hw hs
    · have hless := needs_lt ho hchannels hinv (hregular 0 q s s' rfl hround) hrow hcol hlow
      omega
    · refine ⟨s', ?_, fun i hi j hj => ⟨_, pixel_eq hs'.of hs'.pixels hi hj, hdone i hi j hj⟩⟩
      rw [loop, hround]
      rfl
  | succ n ih =>
    obtain ⟨q, s', hround, ⟨hrow, hcol⟩, hlow, hs'⟩ | ⟨s', hround, hdone, hs'⟩ :=
      round_spec (o := o) (t := t) horder hsquare hh hw hs
    · have hless := needs_lt ho hchannels hinv (hregular 0 q s s' rfl hround) hrow hcol hlow
      obtain ⟨s'', hloop, hdone⟩ := ih hs' (by omega) fun m q' s₁ s₂ hrounds => hregular (m + 1) q' s₁ s₂ (by
        rw [rounds, hround]
        exact hrounds)
      refine ⟨s'', ?_, hdone⟩
      rw [loop, hround]
      exact hloop
    · refine ⟨s', ?_, fun i hi j hj => ⟨_, pixel_eq hs'.of hs'.pixels hi hj, hdone i hi j hj⟩⟩
      rw [loop, hround]
      rfl

/-- A round that filters no regular pixel leaves the weights as they were, so that the next one
filters the same pixel: the loop never ends. -/
theorem loop_stuck (ho : o.Ieee finite zero nonneg large) (hinv : nonneg (invK o t)) {q : Nat × Nat} {s' : Pyramid W}
    (hs : Ready h w (padded h w weight) s) (hround : round o t order s = some (some q, s'))
    (hq : ¬Regular o t finite q) (fuel : Nat) : loop o t order fuel s = none := by
  have hchoice : ∀ {s}, Ready h w (padded h w weight) s →
      ∃ s', round o t order s = some (some q, s') ∧ Ready h w (padded h w weight) s' := by
    intro s₁ hs₁
    obtain ⟨q₀, hq₀, hrow, hcol, hgo, hleast⟩ := choiceOf_spec o.kDa3dThreshold hsquare hh hw weight
    have hsame : ∀ {s q' s'}, Ready h w (padded h w weight) s → round o t order s = some (some q', s') → q' = q₀ := by
      intro s₂ q' s₃ hs₂ hround'
      obtain ⟨s₄, hselect, -⟩ := select_spec hsquare hh hw o.kDa3dThreshold hs₂
      simp only [round, hselect, Option.bind_eq_bind, Option.bind_some, hq₀] at hround'
      split_ifs at hround' with hgo'
      · obtain ⟨s₅, -, hpair⟩ := Option.bind_eq_some_iff.mp hround'
        cases hpair
        rfl
      · cases hround'
    obtain rfl := hsame hs hround
    obtain ⟨q', s₂, hround', -, -, hs₂⟩ | ⟨s₂, hround', hdone, -⟩ :=
      round_spec (o := o) (t := t) horder hsquare hh hw hs₁
    · obtain rfl := hsame hs₁ hround'
      rw [added_irregular ho hinv hq] at hs₂
      exact ⟨s₂, hround', hs₂⟩
    · obtain ⟨q', s₃, hround₃, hcore, hlow, -⟩ | ⟨s₃, hround₃, -⟩ :=
        round_spec (o := o) (t := t) horder hsquare hh hw hs
      · exact absurd (hdone q'.1 hcore.1 q'.2 hcore.2) (not_le.mpr hlow)
      · cases hround.symm.trans hround₃
  clear hround s'
  induction fuel generalizing s with
  | zero => rfl
  | succ fuel ih =>
    obtain ⟨s', hround, hs'⟩ := hchoice hs
    rw [loop, hround]
    exact ih hs'

end Core

/-! ## Tiles -/

/-- A tile of the grid of `da3d_run`. -/
structure Tile.InGrid {F : Type} (t : Tile F) : Prop where
  height : 1 ≤ t.height ∧ t.height < 2 ^ 30
  width : 1 ≤ t.width ∧ t.width < 2 ^ 30
  rowsT : Da3d.tileCount t.height = some t.rowsT
  colsT : Da3d.tileCount t.width = some t.colsT
  tr : 0 ≤ t.tr ∧ t.tr < t.rowsT
  tc : 0 ≤ t.tc ∧ t.tc < t.colsT

theorem edge_bounds {n count i : Int} (hn : 1 ≤ n) (hmax : n < 2 ^ 30) (hcount : Da3d.tileCount n = some count)
    (hi : 0 ≤ i) : 1 ≤ tileStart n count (i + 1) - tileStart n count i ∧
      tileStart n count (i + 1) - tileStart n count i ≤ 191 := by
  obtain ⟨_, hcount', hc, hle, hlong⟩ := Da3d.tileCount_spec hn hmax
  obtain rfl := Option.some.inj (hcount.symm.trans hcount')
  have hstart : ∀ j, 0 ≤ j → tileStart n count j = NssFactory.Da3d.start n count j := fun j hj =>
    Int.tdiv_eq_ediv_of_nonneg (Int.mul_nonneg (by omega) hj)
  rw [hstart _ hi, hstart _ (by omega)]
  exact Da3d.start_succ hc hle hlong i

theorem Tile.InGrid.core {t : Tile F} (ht : t.InGrid) :
    (1 ≤ t.coreH ∧ t.coreH ≤ 191) ∧ 1 ≤ t.coreW ∧ t.coreW ≤ 191 := by
  have hrows := edge_bounds ht.height.1 ht.height.2 ht.rowsT ht.tr.1
  have hcols := edge_bounds ht.width.1 ht.width.2 ht.colsT ht.tc.1
  simp only [Tile.coreH, Tile.coreW, Tile.r0, Tile.c0]
  omega

theorem indexed_core (hh : 1 ≤ h) (hh' : h ≤ 191) (hw : 1 ≤ w) (hw' : w ≤ 191) : Indexed h w := by
  have hsmall : Da3d.nextPow2 191 = 256 := by decide
  have hrows := Da3d.nextPow2_mono hh hh' (by decide)
  have hcols := Da3d.nextPow2_mono hw hw' (by decide)
  rw [hsmall] at hrows hcols
  exact (Nat.mul_le_mul hrows hcols).trans (by decide)

variable (o t order)

/-- After any patches in the core the kernel selects what the weight map does. -/
def Selects : Prop :=
  ∀ (lanes : Nat) (calls : List (Patch W)), (∀ p ∈ calls, p.row < t.coreH ∧ p.col < t.coreW) →
    ∃ s s' m v q, after order o.kDa3dThreshold t.coreH t.coreW calls = some s ∧
      Da3d.run lanes t.coreH t.coreW calls = some m ∧ m.minimum = some v ∧ m.findMinimum = some q ∧
      select o.kDa3dThreshold s = some (⟨decide (v < o.kDa3dThreshold), q⟩, s')

/-- Every round raises the weight of the pixel it filters, and the kernel ends with every weight of
the core at the threshold or above it. -/
structure Ends : Prop where
  raises : ∀ q s s', Filters o t order q s s' →
    ∃ v v', s.map.entry 0 q.1 q.2 = some v ∧ s'.map.entry 0 q.1 q.2 = some v' ∧ v < v'
  ends : ∃ s, loop o t order (2 * (t.coreH * t.coreW) + 1) (start t.coreH t.coreW) = some s ∧
    ∀ i < t.coreH, ∀ j < t.coreW, ∃ v, s.map.entry 0 i j = some v ∧ o.kDa3dThreshold ≤ v

variable {o t order}

omit [OrderTop W] [AddZeroClass W] [Mul W] in
theorem needs_le (weight : Nat → Nat → W) : needs o h w weight ≤ 2 * (h * w) := by
  have hle : ∀ x ∈ Finset.range h ×ˢ Finset.range w, need o (weight x.1 x.2) ≤ 2 := by
    intro x _
    rw [need]
    split_ifs <;> decide
  calc needs o h w weight ≤ (Finset.range h ×ˢ Finset.range w).card • 2 := Finset.sum_le_card_nsmul _ _ 2 hle
    _ = h * w * 2 := by rw [Finset.card_product, Finset.card_range, Finset.card_range]; rfl
    _ = 2 * (h * w) := Nat.mul_comm _ _

/-- On a core that is square or at least two wide and high the levels fit and every selection is
that of the weight map, and the loop does what it should if and only if every pixel it filters is
regular. -/
theorem pyramid_sound_iff (ho : o.Ieee finite zero nonneg large) (horder : ∀ n, (order n).Perm (List.range n))
    (hchannels : t.channels = 1 ∨ t.channels = 3) (ht : t.InGrid) (hsigma : finite (invK o t) ∧ nonneg (invK o t))
    (hsquare : Square t.coreH t.coreW) :
    (Fits t.coreH t.coreW ∧ Selects o t order ∧ Ends o t order) ↔
      ∀ q s s', Filters o t order q s s' → Regular o t finite q := by
  obtain ⟨⟨hh, hh'⟩, hw, hw'⟩ := ht.core
  have hindexed := indexed_core hh hh' hw hw'
  have hstart : Ready t.coreH t.coreW (padded t.coreH t.coreW fun _ _ => (0 : W)) (start t.coreH t.coreW) :=
    ready_start hsquare hindexed
  -- a round and the weights before and after it
  have hfilters : ∀ q s s', Filters o t order q s s' → ∃ weight : Nat → Nat → W,
      s.map.entry 0 q.1 q.2 = some (weight q.1 q.2) ∧ weight q.1 q.2 < o.kDa3dThreshold ∧
        s'.map.entry 0 q.1 q.2 = some (added (patchOf o t q) weight q.1 q.2) := by
    rintro q s s' ⟨⟨n, hrounds⟩, hround⟩
    obtain ⟨weight, hs⟩ := rounds_ready horder hsquare (by omega) (by omega) hstart hrounds
    obtain ⟨q', s₁, hround', ⟨hrow, hcol⟩, hlow, hs₁⟩ | ⟨s₁, hround', -⟩ :=
      round_spec (o := o) (t := t) horder hsquare (by omega) (by omega) hs
    · cases hround.symm.trans hround'
      exact ⟨weight, pixel_eq hs.of hs.pixels hrow hcol, hlow, pixel_eq hs₁.of hs₁.pixels hrow hcol⟩
    · cases hround.symm.trans hround'
  constructor
  · rintro ⟨-, -, hends⟩ q s s' hq
    by_contra hirregular
    obtain ⟨weight, hv, -, hv'⟩ := hfilters q s s' hq
    rw [added_irregular ho hsigma.2 hirregular] at hv'
    obtain ⟨v, v', hvalue, hvalue', hlt⟩ := hends.raises q s s' hq
    cases hv.symm.trans hvalue
    cases hv'.symm.trans hvalue'
    exact lt_irrefl _ hlt
  · intro hregular
    refine ⟨fits hh hh' hw hw', fun lanes calls hcalls =>
      select_after o.kDa3dThreshold horder hsquare hindexed lanes hcalls, fun q s s' hq => ?_, ?_⟩
    · obtain ⟨weight, hv, hlow, hv'⟩ := hfilters q s s' hq
      rw [added_regular ho (by omega) hsigma.1 (hregular q s s' hq)] at hv'
      exact ⟨_, _, hv, hv', ho.lt_add_one hlow⟩
    · exact loop_ends horder hsquare (by omega) (by omega) ho (by omega) hsigma.1 hstart (needs_le _)
        fun m q s₁ s₂ hrounds hround => hregular q s₁ s₂ ⟨⟨m, hrounds⟩, hround⟩

end Runs

/-! ## Exact weights

Numbers that are never rounded, with one value for what is no finite number. -/

section Exact

attribute [local instance] Numerals.two

/-- The value of the bits of a float that is not negative. -/
def bitsValue (b : Nat) : NNRat :=
  if b < 2 ^ 23 then b / 2 ^ 149 else (2 ^ 23 + (b % 2 ^ 23 : Nat)) * 2 ^ (b / 2 ^ 23) / 2 ^ 150

def exactFloats : Floats (Option ℚ) (WithTop NNRat) where
  lit q := some q
  ofInt n := some n
  ofWeight w := WithTop.recTopCoe none (fun a => some (a : ℚ)) w
  neg x := x.map (- ·)
  abs x := x.map (|·|)
  add x y := x.bind fun a => y.map fun b => a + b
  sub x y := x.bind fun a => y.map fun b => a - b
  mul x y := x.bind fun a => y.map fun b => a * b
  div x y := x.bind fun a => y.bind fun b => if b = 0 then none else some (a / b)
  fma x y z := x.bind fun a => y.bind fun b => z.map fun c => a * b + c
  lt x y := (x.bind fun a => y.map fun b => decide (a < b)).getD false
  toInt x := (x.map fun a => if 0 ≤ a then ⌊a⌋ else ⌈a⌉).getD 0
  ofBits b := (bitsValue b.toNat : NNRat)
  kDa3dThreshold := 2

theorem exact_ieee : exactFloats.Ieee (fun x => x.isSome) (fun x => x = some 0) (fun x => ∀ a ∈ x, 0 ≤ a)
    (fun x => x = none) where
  finite_of_zero := by rintro x rfl; rfl
  zero_ofInt := rfl
  zero_sub_self := by
    intro x hx
    obtain ⟨a, rfl⟩ := Option.isSome_iff_exists.mp hx
    simp [exactFloats]
  zero_mul := by
    rintro x y hx rfl
    obtain ⟨a, rfl⟩ := Option.isSome_iff_exists.mp hx
    simp [exactFloats]
  zero_fma := by
    rintro x y z rfl hy rfl
    obtain ⟨a, rfl⟩ := Option.isSome_iff_exists.mp hy
    simp [exactFloats]
  zero_fma' := by
    rintro x y z hx rfl rfl
    obtain ⟨a, rfl⟩ := Option.isSome_iff_exists.mp hx
    simp [exactFloats]
  zero_div := by rintro x rfl; simp [exactFloats]
  zero_neg := by rintro x rfl; simp [exactFloats]
  finite_sub_zero := by
    rintro x y hx rfl
    obtain ⟨a, rfl⟩ := Option.isSome_iff_exists.mp hx
    simp [exactFloats]
  finite_scale := rfl
  lt_zero := by rintro x rfl; simp [exactFloats]
  toInt_zero := by rintro x rfl; simp [exactFloats]
  sub_left := by
    intro x y hx
    obtain rfl := Option.not_isSome_iff_eq_none.mp hx
    simp [exactFloats]
  sub_right := by
    intro x y hy
    obtain rfl := Option.not_isSome_iff_eq_none.mp hy
    simp [exactFloats]
  mul_zero := by
    intro x y hx _
    obtain rfl := Option.not_isSome_iff_eq_none.mp hx
    simp [exactFloats]
  fma_zero := by
    intro x y z hx _
    obtain rfl := Option.not_isSome_iff_eq_none.mp hx
    simp [exactFloats]
  fma_right := by
    intro x y z hz
    obtain rfl := Option.not_isSome_iff_eq_none.mp hz
    simp [exactFloats]
  nonneg_sq := by
    intro x a ha
    cases x with
    | none => simp [exactFloats] at ha
    | some b =>
      obtain rfl : b * b = a := by simpa [exactFloats] using ha
      exact mul_self_nonneg b
  nonneg_fma_sq := by
    intro x z hz a ha
    cases x with
    | none => simp [exactFloats] at ha
    | some b =>
      cases z with
      | none => simp [exactFloats] at ha
      | some c =>
        obtain rfl : b * b + c = a := by simpa [exactFloats] using ha
        exact add_nonneg (mul_self_nonneg b) (hz c rfl)
  large_sq := by
    intro x hx
    obtain rfl := Option.not_isSome_iff_eq_none.mp hx
    rfl
  large_fma_sq := by
    intro x z hx _
    obtain rfl := Option.not_isSome_iff_eq_none.mp hx
    rfl
  large_fma_right := by rintro x z rfl; cases x <;> rfl
  large_fma := by rintro x y z rfl _; rfl
  lt_large := by rintro x rfl; rfl
  one_bits := by
    have hvalue : bitsValue 1065353216 = 1 := by
      norm_num [bitsValue]
    exact congrArg WithTop.some hvalue
  one_mul_one := one_mul 1
  zero_mul_zero := mul_zero 0
  le_add := fun a b => le_self_add
  lt_add_one := by
    intro a ha
    obtain ⟨x, rfl⟩ := WithTop.ne_top_iff_exists.mp (ne_top_of_lt ha)
    exact_mod_cast lt_add_one x
  one_le := fun a => le_add_self
  threshold_le := by
    intro a ha
    have hadd := add_le_add_left ha 1
    rwa [one_add_one_eq_two] at hadd

/-- The one tile of a 16 x 16 plane whose guide has the same sample everywhere. -/
def flatTile (sample : Option ℚ) : Tile (Option ℚ) :=
  ⟨1, 16, 16, 1, 1, 0, 0, fun _ _ => some 0, fun _ _ => sample, some 1⟩

theorem flatTile_inGrid (sample : Option ℚ) : (flatTile sample).InGrid := by
  have hsize : (1 : Int) ≤ 16 ∧ (16 : Int) < 2 ^ 30 := by decide
  have hplace : (0 : Int) ≤ 0 ∧ (0 : Int) < 1 := by decide
  exact ⟨hsize, hsize, rfl, rfl, hplace, hplace⟩

theorem invK_flatTile (sample : Option ℚ) : invK exactFloats (flatTile sample) = some (10 / 7) := by
  norm_num [invK, exactFloats, flatTile]

theorem pyramid_sound_iff_flat : (Fits 16 16 ∧ Selects exactFloats (flatTile (some 3)) List.range ∧
    Ends exactFloats (flatTile (some 3)) List.range) ↔
      ∀ q s s', Filters exactFloats (flatTile (some 3)) List.range q s s' →
        Regular exactFloats (flatTile (some 3)) (fun x => x.isSome) q :=
  pyramid_sound_iff exact_ieee (fun n => .refl _) (.inl rfl) (flatTile_inGrid _)
    (by rw [invK_flatTile]; exact ⟨rfl, by rintro _ ⟨⟩; norm_num⟩) (.inl ⟨by decide, by decide⟩)

/-- A guide of NaN: the kernel filters one pixel for ever. -/
theorem nan_never_ends : (∀ fuel, loop exactFloats (flatTile none) List.range fuel (start 16 16) = none) ∧
    ¬(Fits 16 16 ∧ Selects exactFloats (flatTile none) List.range ∧ Ends exactFloats (flatTile none) List.range) := by
  have hsquare : Da3d.Square 16 16 := .inl ⟨by decide, by decide⟩
  have hstart := ready_start (W := WithTop NNRat) hsquare (indexed_core (by decide) (by decide) (by decide) (by decide))
  have horder : ∀ n, (List.range n).Perm (List.range n) := fun n => .refl _
  have hloop : ∀ fuel, loop exactFloats (flatTile none) List.range fuel (start 16 16) = none := by
    obtain ⟨q, s', hround, -⟩ | ⟨s', -, hdone, -⟩ := round_spec (o := exactFloats) (t := flatTile none) horder hsquare
      (by decide) (by decide) hstart
    · refine loop_stuck horder hsquare (by decide) (by decide) exact_ieee ?_ hstart hround fun hregular => ?_
      · rw [invK_flatTile]
        rintro _ ⟨⟩
        norm_num
      · have hguide := (hregular 0 (by decide)).1
        cases hguide
    · have hzero := hdone 0 (by decide) 0 (by decide)
      exact absurd hzero (not_le.mpr (show (0 : WithTop NNRat) < 2 from two_pos))
  refine ⟨hloop, fun hends => ?_⟩
  obtain ⟨s, hs, -⟩ := hends.2.2.ends
  have hnone := hloop (2 * (16 * 16) + 1)
  cases hnone.symm.trans hs

end Exact

end NssFactory.Cuda.Da3d
