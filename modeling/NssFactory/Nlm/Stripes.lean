import NssFactory.Nlm.Kernels
import NssFactory.Nlm.Offsets

/-!
# The stripes of NLM and their scratch

`plan_stripes` of `host/filter_nlm.cpp` searches the height of the stripes a frame is filtered
in, and `stripe` carves the arrays of one stripe from the scratch block. Here are both, the
stripes of a frame, and which rows of which array each kernel call of `run` touches.

* `planStripes_spec`: what a plan is when there is one; the sizes never wrap around.
* `stripe_rows`, `localClamp`: the rows of a stripe, and that clamping to them is clamping to the
  frame as far as the halo goes.
* `carved`: the arrays lie one behind the other.
* `runCalls_rows`, `fed_offset`: the rows touched exist, and those read have been written before
  by calls for the same offset.
* `scratch_sound`: the plan is sound for every stripe.
-/

namespace NssFactory.Nlm

/-- The parameters as `parse_nlm` lets them through. -/
structure NlmParams where
  d : Int
  a : Int
  s : Int
  channels : ChannelMode
  d_nonneg : 0 ≤ d
  d_le : d ≤ 256
  a_pos : 0 < a
  a_le : a ≤ 64
  s_nonneg : 0 ≤ s
  s_le : s ≤ 1024

/-- The size of a filtered plane, and the widest stride of the window, in floats. -/
structure PlaneSize where
  w : Int
  h : Int
  stride : Int
  w_pos : 1 ≤ w
  h_pos : 1 ≤ h
  w_le : w ≤ stride
  h_lt : h < 2 ^ 31
  stride_lt : stride < 2 ^ 31

/-! ## The plan -/

/-- `std::size_t` arithmetic. -/
def sizeT (n : Nat) : Nat := n % 2 ^ 64

def nlmMaxScratch : Nat := 2 ^ 20

/-- Half the L2 cache, when the system tells its size. -/
def nlmScratchBudget (l2 : Option Int) : Nat :=
  match l2 with
  | some l2 => if l2 > 0 then min nlmMaxScratch (l2.toNat / 2) else nlmMaxScratch
  | none => nlmMaxScratch

def tempArrays : Nat := 2

def savedArrays : Nat := 1

structure NlmStripes where
  halo : Int
  accumArrays : Nat
  coreRows : Int
  floats : Nat

/-- Rows with context, as the plan counts them. -/
def allocExtRows (halo h core : Int) : Nat :=
  min h.toNat (sizeT ((max core 0).toNat + 2 * halo.toNat))

def stripeBytes (z : PlaneSize) (halo : Int) (accumArrays : Nat) (core : Int) : Nat :=
  let coreRows := (max core 0).toNat
  let rows := coreRows * accumArrays + coreRows * savedArrays +
    allocExtRows halo z.h core * tempArrays
  sizeT (rows * z.stride.toNat * 4 + z.w.toNat * 4)

/-- `while (core_rows < h && stripe_bytes(core_rows + 1) <= effective_budget) ++core_rows`. -/
def searchRows (bytes : Int → Nat) (budget : Nat) (h core : Int) : Int :=
  if core < h ∧ bytes (core + 1) ≤ budget then searchRows bytes budget h (core + 1) else core
termination_by (h - core).toNat

def planFloats (z : PlaneSize) (halo : Int) (accumArrays : Nat) (core : Int) : Nat :=
  sizeT (core.toNat * (accumArrays + savedArrays) * z.stride.toNat +
    allocExtRows halo z.h core * tempArrays * z.stride.toNat + z.w.toNat)

def planStripes (l2 : Option Int) (p : NlmParams) (z : PlaneSize) : Except String NlmStripes :=
  let nc := numChannels p.channels
  let halo := p.a + p.s
  let accumArrays := 2 + nc
  let bytes := stripeBytes z halo accumArrays
  let minCoreRows : Int := 21
  let minTileBytes := bytes minCoreRows
  if bytes 1 > nlmMaxScratch then
    .error "nss.NLM: image stride/halo exceeds the 1 MiB workspace limit"
  else
    let effectiveBudget := min nlmMaxScratch (max (nlmScratchBudget l2) minTileBytes)
    let coreRows := searchRows bytes effectiveBudget z.h 1
    let floats := planFloats z halo accumArrays coreRows
    if floats > nlmMaxScratch / 4 then
      .error "nss.NLM: computed workspace exceeds the 1 MiB limit"
    else .ok { halo, accumArrays, coreRows, floats }

/-! ## A stripe -/

/-- The rows with context `[ext0, ext0 + extH)` of a stripe, and its core rows, `coreHeight` of
them, at `coreLocal` within these. -/
structure Stripe where
  ext0 : Int
  extH : Int
  core0 : Int
  coreLocal : Int
  coreHeight : Int

def stripe (halo h core0 core1 : Int) : Stripe :=
  let ext0 := if halo ≥ core0 then 0 else core0 - halo
  let ext1 := if halo ≥ h - core1 then h else core1 + halo
  { ext0, extH := ext1 - ext0, core0, coreLocal := core0 - ext0, coreHeight := core1 - core0 }

/-- The stripes of a frame, `[y0, min(h, y0 + core_rows))`. The plan has at least one core row. -/
def stripesFrom (coreRows h y0 : Int) : List (Int × Int) :=
  if y0 < h ∧ 0 < coreRows then
    (y0, min h (y0 + coreRows)) :: stripesFrom coreRows h (y0 + coreRows)
  else []
termination_by (h - y0).toNat

/-- The arrays carved from the scratch block. -/
inductive Area where
  | weight
  | wdst (c : Nat)
  | maxWeight
  | savedBwd
  | temp
  | tempBwd
  | buffer
  deriving DecidableEq

namespace Stripe

def coreSize (s : Stripe) (stride : Int) : Nat := s.coreHeight.toNat * stride.toNat

def extSize (s : Stripe) (stride : Int) : Nat := s.extH.toNat * stride.toNat

/-- Where an array starts in the block. -/
def start (s : Stripe) (stride : Int) (nc accumArrays : Nat) : Area → Nat
  | .weight => 0
  | .wdst c => (c + 1) * s.coreSize stride
  | .maxWeight => (1 + nc) * s.coreSize stride
  | .savedBwd => accumArrays * s.coreSize stride
  | .temp => accumArrays * s.coreSize stride + s.coreSize stride
  | .tempBwd => accumArrays * s.coreSize stride + s.coreSize stride + s.extSize stride
  | .buffer =>
    accumArrays * s.coreSize stride + s.coreSize stride + tempArrays * s.extSize stride

/-- The rows of an array. -/
def rows (s : Stripe) : Area → Int
  | .temp | .tempBwd => s.extH
  | .buffer => 1
  | _ => s.coreHeight

/-- The floats of a row of it; whole rows are set and copied. -/
def width (w stride : Int) : Area → Int
  | .buffer => w
  | _ => stride

/-- The floats of an array. -/
def size (s : Stripe) (w stride : Int) : Area → Nat
  | .buffer => w.toNat
  | b => (s.rows b).toNat * stride.toNat

/-- The rows of the center frame's map that are consumed. -/
def centerRows (s : Stripe) (oy : Int) : Int × Int :=
  (max 0 (s.coreLocal - oy.natAbs), min s.extH (s.coreLocal + s.coreHeight + oy.natAbs))

/-- Those of a forward frame's. -/
def pairRows (s : Stripe) (oy : Int) : Int × Int :=
  (clampi (s.coreLocal - oy) 0 (s.extH - 1),
    clampi (s.coreLocal + s.coreHeight - 1 - oy) 0 (s.extH - 1) + 1)

end Stripe

def areas (nc : Nat) : List Area :=
  Area.weight :: (List.range nc).map Area.wdst ++ [Area.maxWeight, .savedBwd, .temp, .tempBwd, .buffer]

/-! ## The rows its kernels touch -/

/-- Rows of the arrays. -/
abbrev Rows := Area → Int → Prop

/-- A call: the rows it reads that others have written, those it uses for itself, and those it
leaves written. -/
structure Call where
  reads : Rows
  scratch : Rows
  writes : Rows

def Call.touches (c : Call) : Rows := fun b r => c.reads b r ∨ c.scratch b r ∨ c.writes b r

def noRows : Rows := fun _ _ => False

def rowsOf (area : Area) (y0 y1 : Int) : Rows := fun b r => b = area ∧ y0 ≤ r ∧ r < y1

/-- The rows of the sums. -/
def sumRows (nc : Nat) (height : Int) : Rows := fun b r =>
  (b = .weight ∨ (∃ c, c < nc ∧ b = .wdst c) ∨ b = .maxWeight) ∧ 0 ≤ r ∧ r < height

namespace Stripe

variable (s : Stripe)

/-- `memset`, and the loop over `max_weight`. -/
def initCall (nc : Nat) : Call := ⟨noRows, noRows, sumRows nc s.coreHeight⟩

def distanceCall : Call := ⟨noRows, noRows, rowsOf .tempBwd 0 s.extH⟩

def horizontalCall : Call := ⟨rowsOf .tempBwd 0 s.extH, noRows, rowsOf .temp 0 s.extH⟩

/-- The luma rows go through the first row of `temp_bwd`. -/
def lumaHorizontalCall : Call := ⟨noRows, rowsOf .tempBwd 0 1, rowsOf .temp 0 s.extH⟩

def verticalCall (dst : Area) (radius y0 y1 : Int) : Call where
  reads := fun b r => b = .temp ∧ (r = 0 ∨
    (∃ y, 0 ≤ y ∧ y < radius ∧ r = min y (s.extH - 1)) ∨
    ∃ y, 0 ≤ y ∧ y < y1 ∧ (r = min (y + radius) (s.extH - 1) ∨ r = max (y - radius) 0))
  scratch := rowsOf .buffer 0 1
  writes := fun b r => b = dst ∧ ∃ y, 0 ≤ y ∧ y < y1 ∧ y0 ≤ y ∧ r = y - y0

/-- The copy of the core rows of the backward map. -/
def saveCall : Call where
  reads := fun b r => b = .tempBwd ∧ ∃ yy, 0 ≤ yy ∧ yy < s.coreHeight ∧ r = s.coreLocal + yy
  scratch := noRows
  writes := rowsOf .savedBwd 0 s.coreHeight

def accumCall (nc : Nat) (temp1 : Area) (temp1BaseY : Int) (temp2 : Area) (temp2BaseY oy : Int) :
    Call where
  reads := fun b r => ∃ y, s.coreLocal ≤ y ∧ y < s.coreLocal + s.coreHeight ∧
    (b = temp1 ∧ r = y - temp1BaseY ∨
      b = temp2 ∧ r = clampi (y - oy) 0 (s.extH - 1) - temp2BaseY ∨
      sumRows nc s.coreHeight b r ∧ r = y - s.coreLocal)
  scratch := noRows
  writes := sumRows nc s.coreHeight

def finishCall (nc : Nat) : Call := ⟨sumRows nc s.coreHeight, noRows, noRows⟩

def distanceHorizontalCalls (mode : ChannelMode) (mixed : Bool) : List Call :=
  if !mixed && mode = .y then [s.lumaHorizontalCall] else [s.distanceCall, s.horizontalCall]

def centerCalls (mode : ChannelMode) (mixed : Bool) (radius oy : Int) : List Call :=
  let nc := numChannels mode
  if mixed then
    [s.verticalCall .tempBwd radius 0 s.extH, s.accumCall nc .tempBwd 0 .tempBwd 0 oy]
  else
    let baseY := (s.centerRows oy).1
    [s.verticalCall .tempBwd radius baseY (s.centerRows oy).2,
      s.accumCall nc .tempBwd baseY .tempBwd baseY oy]

def pairCalls (mode : ChannelMode) (mixed : Bool) (radius oy : Int) : List Call :=
  let nc := numChannels mode
  let coreEnd := s.coreLocal + s.coreHeight
  if mixed then
    [s.verticalCall .tempBwd radius 0 s.extH, s.saveCall] ++ s.distanceHorizontalCalls mode mixed ++
      [s.verticalCall .tempBwd radius 0 s.extH, s.accumCall nc .savedBwd s.coreLocal .tempBwd 0 oy]
  else
    let baseY := (s.pairRows oy).1
    [s.verticalCall .savedBwd radius s.coreLocal coreEnd] ++
      s.distanceHorizontalCalls mode mixed ++
      [s.verticalCall .tempBwd radius baseY (s.pairRows oy).2,
        s.accumCall nc .savedBwd s.coreLocal .tempBwd baseY oy]

/-- The calls for offset `(i, oy, ·)`. -/
def offsetCalls (mode : ChannelMode) (mixed : Bool) (radius i oy : Int) : List Call :=
  s.distanceHorizontalCalls mode mixed ++
    if i = 0 then s.centerCalls mode mixed radius oy else s.pairCalls mode mixed radius oy

end Stripe

/-- All calls of a stripe. -/
def Stripe.runCalls (s : Stripe) (p : NlmParams) (mixed : Bool) : List Call :=
  s.initCall (numChannels p.channels) ::
    (visited p.d p.a).flatMap (fun o => s.offsetCalls p.channels mixed p.s o.1 o.2.1) ++
      [s.finishCall (numChannels p.channels)]

/-- The rows written after a call: an array it writes or uses holds nothing else any more. -/
def Call.after (c : Call) (written : Rows) : Rows := fun b r =>
  c.writes b r ∨ written b r ∧ (∀ r', ¬ c.writes b r') ∧ ∀ r', ¬ c.scratch b r'

/-- Every call reads rows that have been written. -/
def Fed : Rows → List Call → Prop
  | _, [] => True
  | written, c :: calls => (∀ b r, c.reads b r → written b r) ∧ Fed (c.after written) calls

/-! ## The plan fits -/

section Plan

variable {l2 : Option Int} {p : NlmParams} {z : PlaneSize} {plan : NlmStripes} {halo : Int}
variable {accumArrays : Nat}

theorem numChannels_pos (mode : ChannelMode) : 1 ≤ numChannels mode := by
  cases mode <;> decide

theorem numChannels_le (mode : ChannelMode) : numChannels mode ≤ 3 := by
  cases mode <;> decide

/-- A loop rule for the search. -/
theorem searchRows_induct {bytes : Int → Nat} {budget : Nat} {h : Int} (P : Int → Prop)
    (hstep : ∀ core, core < h → bytes (core + 1) ≤ budget → P core → P (core + 1)) (core : Int)
    (h0 : P core) : P (searchRows bytes budget h core) := by
  induction core using searchRows.induct bytes budget h with
  | case1 core hfits ih =>
    rw [searchRows, if_pos hfits]
    exact ih (hstep core hfits.1 hfits.2 h0)
  | case2 core hfits => rwa [searchRows, if_neg hfits]

/-- The floats of the scratch for stripes of `core` rows. -/
def scratchFloats (z : PlaneSize) (halo : Int) (accumArrays core : Nat) : Nat :=
  core * (accumArrays + savedArrays) * z.stride.toNat +
    min z.h.toNat (core + 2 * halo.toNat) * tempArrays * z.stride.toNat + z.w.toNat

theorem scratchFloats_lt (hhalo : halo ≤ 1088) (hacc : accumArrays ≤ 5) {core : Nat}
    (hc : core ≤ 2 ^ 20) : scratchFloats z halo accumArrays core * 4 < 2 ^ 64 := by
  have hstride : z.stride.toNat ≤ 2 ^ 31 := by have := z.stride_lt; omega
  have hw : z.w.toNat ≤ 2 ^ 31 := by have := z.w_le; have := z.stride_lt; omega
  have hcore : core * (accumArrays + savedArrays) ≤ 2 ^ 20 * 6 :=
    Nat.mul_le_mul hc (by unfold savedArrays; omega)
  have h1 := Nat.mul_le_mul hcore hstride
  have h2 : min z.h.toNat (core + 2 * halo.toNat) * tempArrays * z.stride.toNat ≤
      (2 ^ 20 + 2176) * 2 * 2 ^ 31 := by
    refine Nat.mul_le_mul (Nat.mul_le_mul ?_ (by decide)) hstride
    omega
  unfold scratchFloats
  omega

theorem allocExtRows_eq (hhalo : halo ≤ 1088) {core : Nat} (hc : core ≤ 2 ^ 20) :
    allocExtRows halo z.h core = min z.h.toNat (core + 2 * halo.toNat) := by
  have hmax : (max (core : Int) 0).toNat = core := by omega
  rw [allocExtRows, hmax, sizeT, Nat.mod_eq_of_lt (by omega)]

/-- Nothing wraps around while the heights are small. -/
theorem stripeBytes_eq (hhalo : halo ≤ 1088) (hacc : accumArrays ≤ 5) {core : Nat}
    (hc : core ≤ 2 ^ 20) :
    stripeBytes z halo accumArrays core = scratchFloats z halo accumArrays core * 4 := by
  have hlt := scratchFloats_lt (z := z) hhalo hacc hc
  have hmax : (max (core : Int) 0).toNat = core := by omega
  simp only [stripeBytes, allocExtRows_eq hhalo hc, hmax]
  rw [sizeT, Nat.mod_eq_of_lt]
  · unfold scratchFloats
    ring
  · refine Nat.lt_of_le_of_lt (Nat.le_of_eq ?_) hlt
    unfold scratchFloats
    ring

theorem planFloats_eq (hhalo : halo ≤ 1088) (hacc : accumArrays ≤ 5) {core : Nat}
    (hc : core ≤ 2 ^ 20) :
    planFloats z halo accumArrays core = scratchFloats z halo accumArrays core := by
  have hlt := scratchFloats_lt (z := z) hhalo hacc hc
  rw [planFloats, allocExtRows_eq hhalo hc, Int.toNat_natCast, sizeT, Nat.mod_eq_of_lt]
  · rfl
  · exact Nat.lt_of_le_of_lt (Nat.le_mul_of_pos_right _ (by decide)) hlt

/-- More than one float a row. -/
theorem le_scratchFloats (z : PlaneSize) (halo : Int) (accumArrays core : Nat) : core ≤ scratchFloats z halo accumArrays core := by
  have hstride : 1 ≤ z.stride.toNat := by have := z.w_pos; have := z.w_le; omega
  have hmul : core * 1 * 1 ≤ core * (accumArrays + savedArrays) * z.stride.toNat :=
    Nat.mul_le_mul (Nat.mul_le_mul_left _ (by unfold savedArrays; omega)) hstride
  unfold scratchFloats
  omega

/-- The search keeps a height that fits. -/
theorem searchRows_fits (hhalo : halo ≤ 1088) (hacc : accumArrays ≤ 5) {budget : Nat}
    (hb : budget ≤ nlmMaxScratch) (h1 : stripeBytes z halo accumArrays 1 ≤ nlmMaxScratch) :
    ∃ core : Nat, searchRows (stripeBytes z halo accumArrays) budget z.h 1 = core ∧ 1 ≤ core ∧
      (core : Int) ≤ z.h ∧ core ≤ 2 ^ 20 ∧
      scratchFloats z halo accumArrays core * 4 ≤ nlmMaxScratch := by
  refine searchRows_induct (fun c => ∃ core : Nat, c = core ∧ 1 ≤ core ∧ (core : Int) ≤ z.h ∧
    core ≤ 2 ^ 20 ∧ scratchFloats z halo accumArrays core * 4 ≤ nlmMaxScratch) ?_ 1 ?_
  · rintro c hlt hbytes ⟨core, rfl, hpos, hle, hsmall, hfits⟩
    have hrows := le_scratchFloats z halo accumArrays core
    have hnext : core + 1 ≤ 2 ^ 20 := by unfold nlmMaxScratch at hfits; omega
    have heq := stripeBytes_eq (z := z) hhalo hacc hnext
    push_cast at heq
    exact ⟨core + 1, by push_cast; rfl, by omega, by push_cast; omega, hnext, by omega⟩
  · have heq : stripeBytes z halo accumArrays ((1 : Nat) : Int) = _ :=
      stripeBytes_eq hhalo hacc (by decide)
    have hpos := z.h_pos
    exact ⟨1, rfl, by decide, by exact_mod_cast hpos, by decide, by push_cast at heq; omega⟩

/-- What a plan is. -/
theorem planStripes_spec (h : planStripes l2 p z = .ok plan) :
    plan.halo = p.a + p.s ∧ plan.accumArrays = 2 + numChannels p.channels ∧
      ∃ core : Nat, plan.coreRows = core ∧ 1 ≤ core ∧ (core : Int) ≤ z.h ∧
        plan.floats = scratchFloats z plan.halo plan.accumArrays core ∧
        plan.floats * 4 ≤ nlmMaxScratch := by
  have hhalo : p.a + p.s ≤ 1088 := by have := p.a_le; have := p.s_le; omega
  have hacc : 2 + numChannels p.channels ≤ 5 := by have := numChannels_le p.channels; omega
  simp only [planStripes] at h
  split at h
  · cases h
  · rename_i hone
    obtain ⟨core, hsearch, hpos, hle, hsmall, hfits⟩ := searchRows_fits (z := z) hhalo hacc
      (Nat.min_le_left nlmMaxScratch (max (nlmScratchBudget l2)
        (stripeBytes z (p.a + p.s) (2 + numChannels p.channels) 21))) (by omega)
    rw [hsearch, planFloats_eq hhalo hacc hsmall] at h
    split at h
    · cases h
    · cases h
      exact ⟨rfl, rfl, core, rfl, hpos, hle, rfl, hfits⟩

end Plan

/-! ## The rows of a stripe -/

section Rows

variable {halo h core0 core1 coreRows y0 y1 w stride : Int} {st : Stripe}

/-- The stripes of a frame are not empty, and no higher than planned. -/
theorem stripesFrom_mem (h0 : 0 ≤ y0) (hmem : (core0, core1) ∈ stripesFrom coreRows h y0) :
    y0 ≤ core0 ∧ core0 < core1 ∧ core1 ≤ h ∧ core1 - core0 ≤ coreRows := by
  induction y0 using stripesFrom.induct coreRows h with
  | case1 y0 hy ih =>
    rw [stripesFrom, if_pos hy] at hmem
    cases hmem with
    | head => omega
    | tail _ hmem =>
      have := ih (by omega) hmem
      omega
  | case2 y0 hy =>
    rw [stripesFrom, if_neg hy] at hmem
    cases hmem

/-- Every row is in one of them, and no two of them share a row. -/
theorem stripesFrom_cover (hc : 0 < coreRows) {y : Int} (hy : y0 ≤ y) (hyh : y < h) :
    ∃ core0 core1, (core0, core1) ∈ stripesFrom coreRows h y0 ∧ core0 ≤ y ∧ y < core1 := by
  induction y0 using stripesFrom.induct coreRows h with
  | case1 y0 h0 ih =>
    rw [stripesFrom, if_pos h0]
    cases Int.lt_or_le y (y0 + coreRows) with
    | inl hlt => exact ⟨y0, _, List.mem_cons_self, hy, by omega⟩
    | inr hle =>
      obtain ⟨core0, core1, hmem, hin⟩ := ih hle
      exact ⟨core0, core1, List.mem_cons_of_mem _ hmem, hin⟩
  | case2 y0 h0 => exact absurd ⟨by omega, hc⟩ h0

/-- The rows with context lie in the frame, and the core rows among them. -/
structure Stripe.Within (st : Stripe) (halo h core0 core1 : Int) : Prop where
  ext0_nonneg : 0 ≤ st.ext0
  core0_eq : st.ext0 + st.coreLocal = core0
  local_nonneg : 0 ≤ st.coreLocal
  height_eq : st.coreHeight = core1 - core0
  height_pos : 0 < st.coreHeight
  core_le : st.coreLocal + st.coreHeight ≤ st.extH
  ext_le : st.ext0 + st.extH ≤ h
  ext_le_halo : st.extH ≤ st.coreHeight + 2 * halo
  above : st.ext0 = 0 ∨ st.coreLocal = halo
  below : st.ext0 + st.extH = h ∨ st.extH = st.coreLocal + st.coreHeight + halo

theorem stripe_within (hh : 0 ≤ halo) (h0 : 0 ≤ core0) (h01 : core0 < core1) (h1 : core1 ≤ h) :
    (stripe halo h core0 core1).Within halo h core0 core1 := by
  constructor <;> simp only [stripe] <;> (try split_ifs) <;> omega

/-- Clamping to the rows with context is clamping to the frame, as far as the halo goes. -/
theorem Stripe.Within.clampi_local (hs : st.Within halo h core0 core1) {r : Int}
    (h0 : core0 - halo ≤ r) (h1 : r ≤ core1 - 1 + halo) :
    clampi (r - st.ext0) 0 (st.extH - 1) = clampi r 0 (h - 1) - st.ext0 := by
  have := hs.core0_eq
  have := hs.height_eq
  have := hs.height_pos
  have := hs.ext0_nonneg
  have := hs.local_nonneg
  have := hs.core_le
  have := hs.ext_le
  rw [clampi_eq _ (by omega), clampi_eq _ (by omega)]
  rcases hs.above with habove | habove <;> rcases hs.below with hbelow | hbelow <;> omega

end Rows

/-! ## The arrays of a stripe -/

section Carved

variable {halo h core0 core1 w stride : Int} {st : Stripe} {nc : Nat}

/-- An array ends where the next starts, or before. -/
theorem Stripe.carved (st : Stripe) (w stride : Int) (nc : Nat) :
    (areas nc).Pairwise fun b b' =>
      st.start stride nc (2 + nc) b + st.size w stride b ≤ st.start stride nc (2 + nc) b' := by
  have hmono : ∀ k k' : Nat, k < k' → k * st.coreSize stride + st.coreSize stride ≤
      k' * st.coreSize stride := fun k k' hk => by
    rw [← Nat.succ_mul]
    exact Nat.mul_le_mul_right _ hk
  have hweight : ∀ k : Nat, 0 < k → st.coreSize stride ≤ k * st.coreSize stride := fun k hk =>
    Nat.le_mul_of_pos_left _ hk
  have hmax := hmono (1 + nc) (2 + nc) (by omega)
  have hone := hweight (1 + nc) (by omega)
  have hsize : ∀ b, st.size w stride b = match b with
      | .temp | .tempBwd => st.extSize stride
      | .buffer => w.toNat
      | _ => st.coreSize stride := fun b => by cases b <;> rfl
  rw [areas, List.pairwise_append, List.pairwise_cons, List.pairwise_map]
  refine ⟨⟨?_, ?_⟩, ?_, ?_⟩
  · intro b hb
    obtain ⟨c, _, rfl⟩ := List.mem_map.mp hb
    simpa [hsize, Stripe.start] using hweight (c + 1) (by omega)
  · refine List.pairwise_lt_range.imp fun {c c'} hc => ?_
    simpa [hsize, Stripe.start] using hmono (c + 1) (c' + 1) (by omega)
  · simp [hsize, Stripe.start, tempArrays]
    omega
  · intro b hb b' hb'
    -- the sums end before `max_weight`
    have hend : st.start stride nc (2 + nc) b + st.size w stride b ≤ (1 + nc) * st.coreSize stride := by
      rcases List.mem_cons.mp hb with rfl | hb
      · simpa [hsize, Stripe.start] using hone
      · obtain ⟨c, hc, rfl⟩ := List.mem_map.mp hb
        have := List.mem_range.mp hc
        simpa [hsize, Stripe.start] using hmono (c + 1) (1 + nc) (by omega)
    refine Nat.le_trans hend ?_
    simp only [List.mem_cons, List.not_mem_nil, or_false] at hb'
    rcases hb' with rfl | rfl | rfl | rfl | rfl <;> simp only [Stripe.start] <;> omega

/-- The last of them ends within the plan. -/
theorem Stripe.Within.carved_le (hs : st.Within halo h core0 core1) (z : PlaneSize) (hz : z.h = h)
    {core : Nat} (hcore : core1 - core0 ≤ core) :
    ∀ b ∈ areas nc, st.start z.stride nc (2 + nc) b + st.size z.w z.stride b ≤
      scratchFloats z halo (2 + nc) core := by
  have hlast : st.start z.stride nc (2 + nc) .buffer + st.size z.w z.stride .buffer ≤
      scratchFloats z halo (2 + nc) core := by
    have hheight := hs.height_eq
    have hpos := hs.height_pos
    have hext := hs.ext_le
    have hext0 := hs.ext0_nonneg
    have hhalo := hs.ext_le_halo
    have hC : st.coreSize z.stride ≤ core * z.stride.toNat :=
      Nat.mul_le_mul_right _ (by omega)
    have hE : st.extSize z.stride ≤ min z.h.toNat (core + 2 * halo.toNat) * z.stride.toNat :=
      Nat.mul_le_mul_right _ (by omega)
    have hcores := Nat.mul_le_mul_left (2 + nc + 1) hC
    have hexts := Nat.mul_le_mul_left 2 hE
    simp only [Stripe.start, Stripe.size, scratchFloats, savedArrays, tempArrays]
    calc (2 + nc) * st.coreSize z.stride + st.coreSize z.stride + 2 * st.extSize z.stride +
          z.w.toNat
        = (2 + nc + 1) * st.coreSize z.stride + 2 * st.extSize z.stride + z.w.toNat := by ring
      _ ≤ (2 + nc + 1) * (core * z.stride.toNat) +
          2 * (min z.h.toNat (core + 2 * halo.toNat) * z.stride.toNat) + z.w.toNat := by omega
      _ = _ := by ring
  intro b hb
  refine Nat.le_trans ?_ hlast
  have hbuffer : areas nc = (Area.weight :: (List.range nc).map Area.wdst ++
      [Area.maxWeight, .savedBwd, .temp, .tempBwd]) ++ [Area.buffer] := by simp [areas]
  have hcarved := st.carved z.w z.stride nc
  rw [hbuffer] at hb hcarved
  rcases List.mem_append.mp hb with hb | hb
  · have := (List.pairwise_append.mp hcarved).2.2 b hb Area.buffer (List.mem_singleton.mpr rfl)
    omega
  · rw [List.mem_singleton.mp hb]

end Carved

/-! ## The rows touched -/

section Touched

variable {halo h core0 core1 radius y0 y1 oy i base : Int} {st : Stripe} {nc : Nat}
variable {mode : ChannelMode} {mixed : Bool} {written : Rows} {calls : List Call} {dst : Area}

/-- The rows of the arrays carved. -/
def Stripe.carvedRows (st : Stripe) (nc : Nat) : Rows := fun b r =>
  b ∈ areas nc ∧ 0 ≤ r ∧ r < st.rows b

theorem mem_areas_sum {b : Area}
    (h : b = .weight ∨ (∃ c, c < nc ∧ b = .wdst c) ∨ b = .maxWeight) : b ∈ areas nc := by
  rcases h with rfl | ⟨c, hc, rfl⟩ | rfl <;> simp [areas, *]

theorem sumRows_carved {b : Area} {r : Int} (h : sumRows nc st.coreHeight b r) :
    st.carvedRows nc b r := by
  refine ⟨mem_areas_sum h.1, h.2.1, ?_⟩
  rcases h.1 with rfl | ⟨c, -, rfl⟩ | rfl <;> exact h.2.2

/-- The rows of the two maps an accumulation reads. -/
structure Stripe.Reads (st : Stripe) (base1 rows1 base2 rows2 oy : Int) : Prop where
  first : ∀ y, st.coreLocal ≤ y → y < st.coreLocal + st.coreHeight →
    base1 ≤ y ∧ y < base1 + rows1
  second : ∀ y, st.coreLocal ≤ y → y < st.coreLocal + st.coreHeight →
    base2 ≤ clampi (y - oy) 0 (st.extH - 1) ∧ clampi (y - oy) 0 (st.extH - 1) < base2 + rows2

namespace Stripe.Within

variable (hs : st.Within halo h core0 core1)

include hs

theorem reads_all : st.Reads 0 st.extH 0 st.extH oy := by
  obtain ⟨hext0, hcore0, hlocal, hheight, hpos, hcore, hext, -, -, -⟩ := hs
  constructor <;> intro y h0 h1
  · omega
  · rw [clampi_eq _ (by omega)]
    omega

/-- The map of the center frame has the rows consumed. -/
theorem reads_center (oy : Int) : 0 ≤ (st.centerRows oy).1 ∧ (st.centerRows oy).1 ≤ (st.centerRows oy).2 ∧
    (st.centerRows oy).2 ≤ st.extH ∧
    st.Reads (st.centerRows oy).1 ((st.centerRows oy).2 - (st.centerRows oy).1)
      (st.centerRows oy).1 ((st.centerRows oy).2 - (st.centerRows oy).1) oy := by
  obtain ⟨hext0, hcore0, hlocal, hheight, hpos, hcore, hext, -, -, -⟩ := hs
  refine ⟨?_, ?_, ?_, ?_, ?_⟩ <;> simp only [Stripe.centerRows]
  · omega
  · omega
  · omega
  · omega
  · intro y h0 h1
    rw [clampi_eq _ (by omega)]
    omega

/-- So has that of a forward frame, and the backward one the core rows. -/
theorem reads_pair (oy : Int) : 0 ≤ (st.pairRows oy).1 ∧ (st.pairRows oy).1 ≤ (st.pairRows oy).2 ∧
    (st.pairRows oy).2 ≤ st.extH ∧
    st.Reads st.coreLocal st.coreHeight (st.pairRows oy).1
      ((st.pairRows oy).2 - (st.pairRows oy).1) oy := by
  obtain ⟨hext0, hcore0, hlocal, hheight, hpos, hcore, hext, -, -, -⟩ := hs
  have hclamp : ∀ r, clampi r 0 (st.extH - 1) = max 0 (min r (st.extH - 1)) := fun r =>
    clampi_eq r (by omega)
  refine ⟨?_, ?_, ?_, fun y h0 h1 => ⟨h0, h1⟩, fun y h0 h1 => ?_⟩ <;>
    simp only [Stripe.pairRows, hclamp] <;> omega

end Stripe.Within

theorem Stripe.Reads.core {base1 rows1 : Int} (h : st.Reads base1 rows1 0 st.extH oy) :
    st.Reads st.coreLocal st.coreHeight 0 st.extH oy :=
  ⟨fun _ h0 h1 => ⟨h0, h1⟩, h.second⟩

/-! ### They have been written -/

/-- The sums are there to be added to. -/
def SumsWritten (nc : Nat) (height : Int) (written : Rows) : Prop :=
  ∀ b r, sumRows nc height b r → written b r

theorem fed_distanceHorizontal
    (hrest : ∀ w', (∀ r, 0 ≤ r → r < st.extH → w' .temp r) →
      (∀ b r, b ≠ .temp → b ≠ .tempBwd → written b r → w' b r) → Fed w' calls) :
    Fed written (st.distanceHorizontalCalls mode mixed ++ calls) := by
  unfold Stripe.distanceHorizontalCalls
  split
  · refine ⟨fun b r hr => hr.elim, hrest _ (fun r h0 h1 => .inl ⟨rfl, h0, h1⟩) ?_⟩
    intro b r hb hb' hw
    exact .inr ⟨hw, fun r' hr' => hb hr'.1, fun r' hr' => hb' hr'.1⟩
  · refine ⟨fun b r hr => hr.elim, fun b r hr => .inl hr,
      hrest _ (fun r h0 h1 => .inl ⟨rfl, h0, h1⟩) ?_⟩
    intro b r hb hb' hw
    have hdistance : (st.distanceCall.after written) b r :=
      .inr ⟨hw, fun r' hr' => hb' hr'.1, fun _ => id⟩
    exact .inr ⟨hdistance, fun r' hr' => hb hr'.1, fun _ => id⟩

theorem fed_vertical (hpos : 0 < st.extH) (hradius : 0 ≤ radius) (h0 : 0 ≤ y0) (h1 : y1 ≤ st.extH)
    (htemp : ∀ r, 0 ≤ r → r < st.extH → written .temp r)
    (hrest : ∀ w', (∀ r, 0 ≤ r → r < y1 - y0 → w' dst r) →
      (∀ b r, b ≠ dst → b ≠ .buffer → written b r → w' b r) → Fed w' calls) :
    Fed written (st.verticalCall dst radius y0 y1 :: calls) := by
  refine ⟨?_, hrest _ (fun r hr hr' => .inl ⟨rfl, r + y0, by omega⟩) ?_⟩
  · rintro b r ⟨rfl, rfl | ⟨y, hy, hy', rfl⟩ | ⟨y, hy, hy', rfl | rfl⟩⟩ <;>
      exact htemp _ (by omega) (by omega)
  · intro b r hb hb' hw
    exact .inr ⟨hw, fun r' hr' => hb hr'.1, fun r' hr' => hb' hr'.1⟩

theorem fed_save (hmap : ∀ yy, 0 ≤ yy → yy < st.coreHeight → written .tempBwd (st.coreLocal + yy))
    (hrest : ∀ w', (∀ r, 0 ≤ r → r < st.coreHeight → w' .savedBwd r) →
      (∀ b r, b ≠ .savedBwd → written b r → w' b r) → Fed w' calls) :
    Fed written (st.saveCall :: calls) := by
  refine ⟨?_, hrest _ (fun r h0 h1 => .inl ⟨rfl, h0, h1⟩) fun b r hb hw =>
    .inr ⟨hw, fun r' hr' => hb hr'.1, fun _ => id⟩⟩
  rintro b r ⟨rfl, yy, h0, h1, rfl⟩
  exact hmap yy h0 h1

theorem fed_accum {temp1 temp2 : Area} {base1 rows1 base2 rows2 : Int}
    (hreads : st.Reads base1 rows1 base2 rows2 oy) (hsums : SumsWritten nc st.coreHeight written)
    (h1 : ∀ r, 0 ≤ r → r < rows1 → written temp1 r) (h2 : ∀ r, 0 ≤ r → r < rows2 → written temp2 r)
    (hrest : ∀ w', SumsWritten nc st.coreHeight w' → Fed w' calls) :
    Fed written (st.accumCall nc temp1 base1 temp2 base2 oy :: calls) := by
  refine ⟨?_, hrest _ fun b r hr => .inl hr⟩
  rintro b r ⟨y, hy0, hy1, ⟨rfl, rfl⟩ | ⟨rfl, rfl⟩ | ⟨hr, -⟩⟩
  · have := hreads.first y hy0 hy1
    exact h1 _ (by omega) (by omega)
  · have := hreads.second y hy0 hy1
    exact h2 _ (by omega) (by omega)
  · exact hsums b r hr

/-- What is kept outside the maps keeps the sums. -/
theorem SumsWritten.keep {w' : Rows} (hsums : SumsWritten nc base written)
    (hkeep : ∀ b r, b ≠ .temp → b ≠ .tempBwd → b ≠ .savedBwd → b ≠ .buffer → written b r → w' b r) :
    SumsWritten nc base w' := by
  intro b r hr
  refine hkeep b r ?_ ?_ ?_ ?_ (hsums b r hr) <;> rintro rfl <;> simp [sumRows] at hr

namespace Stripe.Within

variable (hs : st.Within halo h core0 core1)

include hs

/-- The calls for an offset read what they have written themselves, and the sums. -/
theorem fed_offset (hradius : 0 ≤ radius) (hsums : SumsWritten (numChannels mode) st.coreHeight written)
    (hrest : ∀ w', SumsWritten (numChannels mode) st.coreHeight w' → Fed w' calls) :
    Fed written (st.offsetCalls mode mixed radius i oy ++ calls) := by
  have hpos := hs.height_pos
  have hlocal := hs.local_nonneg
  have hcore := hs.core_le
  have hext : 0 < st.extH := by omega
  rw [Stripe.offsetCalls, List.append_assoc]
  refine fed_distanceHorizontal fun w1 htemp1 hkeep1 => ?_
  replace hsums := hsums.keep fun b r hb hb' _ _ => hkeep1 b r hb hb'
  clear hkeep1
  by_cases hi : i = 0
  · rw [if_pos hi]
    simp only [Stripe.centerCalls]
    cases mixed with
    | true =>
      refine fed_vertical hext hradius (Int.le_refl 0) (Int.le_refl _) htemp1 fun w2 hmap hkeep => ?_
      replace hmap : ∀ r, 0 ≤ r → r < st.extH → w2 .tempBwd r := by simpa using hmap
      exact fed_accum hs.reads_all (hsums.keep fun b r _ hb _ hb' => hkeep b r hb hb') hmap hmap
        hrest
    | false =>
      obtain ⟨h0, h01, h1, hreads⟩ := hs.reads_center oy
      refine fed_vertical hext hradius h0 h1 htemp1 fun w2 hmap hkeep => ?_
      exact fed_accum hreads (hsums.keep fun b r _ hb _ hb' => hkeep b r hb hb') hmap hmap hrest
  · rw [if_neg hi]
    simp only [Stripe.pairCalls]
    cases mixed with
    | true =>
      simp only [if_true, List.cons_append, List.nil_append, List.append_assoc]
      refine fed_vertical hext hradius (Int.le_refl 0) (Int.le_refl _) htemp1 fun w2 hmap hkeep => ?_
      replace hsums := hsums.keep fun b r _ hb _ hb' => hkeep b r hb hb'
      clear hkeep
      refine fed_save (fun yy h0 h1 => hmap _ (by omega) (by omega)) fun w3 hsaved hkeep => ?_
      replace hsums := hsums.keep fun b r _ _ hb _ => hkeep b r hb
      clear hkeep
      refine fed_distanceHorizontal fun w4 htemp hkeep => ?_
      replace hsums := hsums.keep fun b r hb hb' _ _ => hkeep b r hb hb'
      replace hsaved : ∀ r, 0 ≤ r → r < st.coreHeight → w4 .savedBwd r := fun r h0 h1 =>
        hkeep _ r (by simp) (by simp) (hsaved r h0 h1)
      clear hkeep
      refine fed_vertical hext hradius (Int.le_refl 0) (Int.le_refl _) htemp fun w5 hmap hkeep => ?_
      replace hmap : ∀ r, 0 ≤ r → r < st.extH → w5 .tempBwd r := by simpa using hmap
      exact fed_accum hs.reads_all.core (hsums.keep fun b r _ hb _ hb' => hkeep b r hb hb')
        (fun r h0 h1 => hkeep _ r (by simp) (by simp) (hsaved r h0 h1)) hmap hrest
    | false =>
      obtain ⟨h0, h01, h1, hreads⟩ := hs.reads_pair oy
      simp only [Bool.false_eq_true, if_false, List.cons_append, List.nil_append, List.append_assoc]
      refine fed_vertical hext hradius hlocal hcore htemp1 fun w2 hmap hkeep => ?_
      replace hsums := hsums.keep fun b r _ _ hb hb' => hkeep b r hb hb'
      replace hmap : ∀ r, 0 ≤ r → r < st.coreHeight → w2 .savedBwd r := by simpa using hmap
      clear hkeep
      refine fed_distanceHorizontal fun w3 htemp hkeep => ?_
      replace hsums := hsums.keep fun b r hb hb' _ _ => hkeep b r hb hb'
      replace hmap : ∀ r, 0 ≤ r → r < st.coreHeight → w3 .savedBwd r := fun r h0 h1 =>
        hkeep _ r (by simp) (by simp) (hmap r h0 h1)
      clear hkeep
      refine fed_vertical hext hradius h0 h1 htemp fun w4 hmap2 hkeep => ?_
      exact fed_accum hreads (hsums.keep fun b r _ hb _ hb' => hkeep b r hb hb')
        (fun r h0 h1 => hkeep _ r (by simp) (by simp) (hmap r h0 h1)) hmap2 hrest

/-- The calls of a stripe read what has been written. -/
theorem fed_run (p : NlmParams) : Fed noRows (st.runCalls p mixed) := by
  refine ⟨fun b r hr => hr.elim, ?_⟩
  have hrun : ∀ (offsets : List (Int × Int × Int)) (written : Rows),
      SumsWritten (numChannels p.channels) st.coreHeight written →
      Fed written (offsets.flatMap (fun o => st.offsetCalls p.channels mixed p.s o.1 o.2.1) ++
        [st.finishCall (numChannels p.channels)]) := by
    intro offsets
    induction offsets with
    | nil => exact fun written hsums => ⟨hsums, trivial⟩
    | cons o offsets ih =>
      intro written hsums
      rw [List.flatMap_cons, List.append_assoc]
      exact hs.fed_offset p.s_nonneg hsums ih
  exact hrun _ _ fun b r hr => .inl hr

/-! ### They exist -/

omit hs in
theorem rowsOf_carved {b' : Area} (hb : b' ∈ areas nc) (h0 : 0 ≤ y0) (h1 : y1 ≤ st.rows b') :
    ∀ b r, rowsOf b' y0 y1 b r → st.carvedRows nc b r := by
  rintro b r ⟨rfl, hr, hr'⟩
  exact ⟨hb, by omega, by omega⟩

theorem distanceHorizontal_carved :
    ∀ c ∈ st.distanceHorizontalCalls mode mixed, ∀ b r, c.touches b r → st.carvedRows nc b r := by
  have hext : 0 < st.extH := by
    have := hs.height_pos
    have := hs.core_le
    have := hs.local_nonneg
    omega
  have htemp : ∀ b r, rowsOf .temp 0 st.extH b r → st.carvedRows nc b r :=
    rowsOf_carved (by simp [areas]) (Int.le_refl 0) (Int.le_refl _)
  have hbwd : ∀ b r, rowsOf .tempBwd 0 st.extH b r → st.carvedRows nc b r :=
    rowsOf_carved (by simp [areas]) (Int.le_refl 0) (Int.le_refl _)
  intro c hc b r ht
  unfold Stripe.distanceHorizontalCalls at hc
  split at hc
  · rw [List.mem_singleton.mp hc] at ht
    rcases ht with ht | ht | ht
    · exact ht.elim
    · exact hbwd b r ⟨ht.1, ht.2.1, by have := ht.2.2; omega⟩
    · exact htemp b r ht
  · simp only [List.mem_cons, List.not_mem_nil, or_false] at hc
    rcases hc with rfl | rfl <;> rcases ht with ht | ht | ht
    · exact ht.elim
    · exact ht.elim
    · exact hbwd b r ht
    · exact hbwd b r ht
    · exact ht.elim
    · exact htemp b r ht

theorem vertical_carved (hdst : dst ∈ areas nc) (hradius : 0 ≤ radius) (h1 : y1 ≤ st.extH)
    (hrows : y1 - y0 ≤ st.rows dst) :
    ∀ b r, (st.verticalCall dst radius y0 y1).touches b r → st.carvedRows nc b r := by
  have hpos := hs.height_pos
  have hlocal := hs.local_nonneg
  have hcore := hs.core_le
  have htemp : ∀ r, 0 ≤ r → r < st.extH → st.carvedRows nc .temp r := fun r h0 h1 =>
    ⟨by simp [areas], h0, h1⟩
  rintro b r (⟨rfl, hr⟩ | ht | ⟨rfl, y, hy, hy1, hy0, rfl⟩)
  · rcases hr with rfl | ⟨y, hy, hy', rfl⟩ | ⟨y, hy, hy', rfl | rfl⟩ <;>
      exact htemp _ (by omega) (by omega)
  · exact rowsOf_carved (by simp [areas]) (Int.le_refl 0) (Int.le_refl _) b r ht
  · exact ⟨hdst, by omega, by omega⟩

omit hs in
theorem accum_carved {temp1 temp2 : Area} {base1 rows1 base2 rows2 : Int}
    (hreads : st.Reads base1 rows1 base2 rows2 oy) (hb1 : temp1 ∈ areas nc)
    (hb2 : temp2 ∈ areas nc) (hr1 : rows1 ≤ st.rows temp1) (hr2 : rows2 ≤ st.rows temp2) :
    ∀ b r, (st.accumCall nc temp1 base1 temp2 base2 oy).touches b r → st.carvedRows nc b r := by
  rintro b r (⟨y, hy0, hy1, ⟨rfl, rfl⟩ | ⟨rfl, rfl⟩ | ⟨hr, -⟩⟩ | ht | ht)
  · have := hreads.first y hy0 hy1
    exact ⟨hb1, by omega, by omega⟩
  · have := hreads.second y hy0 hy1
    exact ⟨hb2, by omega, by omega⟩
  · exact sumRows_carved hr
  · exact ht.elim
  · exact sumRows_carved ht

theorem offset_carved (hradius : 0 ≤ radius) :
    ∀ c ∈ st.offsetCalls mode mixed radius i oy, ∀ b r, c.touches b r →
      st.carvedRows (numChannels mode) b r := by
  have hpos := hs.height_pos
  have hlocal := hs.local_nonneg
  have hcore := hs.core_le
  have hbwd : Area.tempBwd ∈ areas (numChannels mode) := by simp [areas]
  have hsaved : Area.savedBwd ∈ areas (numChannels mode) := by simp [areas]
  have hfull : ∀ b r, (st.verticalCall .tempBwd radius 0 st.extH).touches b r →
      st.carvedRows (numChannels mode) b r :=
    hs.vertical_carved hbwd hradius (Int.le_refl _) (by simp [Stripe.rows])
  intro c hc
  rcases List.mem_append.mp hc with hc | hc
  · exact hs.distanceHorizontal_carved c hc
  · split at hc
    · simp only [Stripe.centerCalls] at hc
      split at hc <;> simp only [List.mem_cons, List.not_mem_nil, or_false] at hc
      · rcases hc with rfl | rfl
        · exact hfull
        · exact accum_carved hs.reads_all hbwd hbwd (Int.le_refl _) (Int.le_refl _)
      · obtain ⟨h0, h01, h1, hreads⟩ := hs.reads_center oy
        have hrows : (st.centerRows oy).2 - (st.centerRows oy).1 ≤ st.rows .tempBwd := by
          simp only [Stripe.rows]
          omega
        rcases hc with rfl | rfl
        · exact hs.vertical_carved hbwd hradius h1 hrows
        · exact accum_carved hreads hbwd hbwd hrows hrows
    · simp only [Stripe.pairCalls] at hc
      split at hc <;>
        simp only [List.mem_append, List.mem_cons, List.not_mem_nil, or_false] at hc
      · rcases hc with ((rfl | rfl) | hc) | (rfl | rfl)
        · exact hfull
        · rintro b r (⟨rfl, yy, h0, h1, rfl⟩ | ht | ht)
          · exact ⟨hbwd, by omega, by simp only [Stripe.rows]; omega⟩
          · exact ht.elim
          · exact rowsOf_carved hsaved (Int.le_refl 0) (Int.le_refl _) b r ht
        · exact hs.distanceHorizontal_carved c hc
        · exact hfull
        · exact accum_carved hs.reads_all.core hsaved hbwd (Int.le_refl _) (Int.le_refl _)
      · obtain ⟨h0, h01, h1, hreads⟩ := hs.reads_pair oy
        have hrows : (st.pairRows oy).2 - (st.pairRows oy).1 ≤ st.rows .tempBwd := by
          simp only [Stripe.rows]
          omega
        rcases hc with (rfl | hc) | (rfl | rfl)
        · exact hs.vertical_carved hsaved hradius hcore (by simp [Stripe.rows])
        · exact hs.distanceHorizontal_carved c hc
        · exact hs.vertical_carved hbwd hradius h1 hrows
        · exact accum_carved hreads hsaved hbwd (Int.le_refl _) hrows

/-- The rows a stripe touches are rows of its arrays. -/
theorem run_carved (p : NlmParams) : ∀ c ∈ st.runCalls p mixed, ∀ b r, c.touches b r →
    st.carvedRows (numChannels p.channels) b r := by
  intro c hc b r ht
  simp only [Stripe.runCalls, List.mem_append, List.mem_cons, List.mem_flatMap,
    List.not_mem_nil, or_false] at hc
  rcases hc with (rfl | ⟨o, -, hc⟩) | rfl
  · rcases ht with ht | ht | ht
    · exact ht.elim
    · exact ht.elim
    · exact sumRows_carved ht
  · exact hs.offset_carved p.s_nonneg c hc b r ht
  · rcases ht with ht | ht | ht
    · exact sumRows_carved ht
    · exact ht.elim
    · exact ht.elim

end Stripe.Within

end Touched

/-! ## The scratch is sound -/

/-- An element of a row lies in its array. -/
theorem Stripe.element_lt (st : Stripe) {nc : Nat} {w stride r x : Int} {b : Area}
    (hr : st.carvedRows nc b r) (hw : 0 ≤ stride) (hx : 0 ≤ x)
    (hxw : x < Stripe.width w stride b) :
    0 ≤ r * stride + x ∧ r * stride + x < st.size w stride b := by
  obtain ⟨-, h0, h1⟩ := hr
  have hmul : 0 ≤ r * stride := Int.mul_nonneg h0 hw
  have hsize : ∀ n : Int, r < n → x < stride →
      r * stride + x < ((n.toNat * stride.toNat : Nat) : Int) := by
    intro n hn hxs
    have := Int.mul_le_mul_of_nonneg_right (show r + 1 ≤ n by omega) hw
    have hn0 : (n.toNat : Int) = n := by omega
    have hs0 : (stride.toNat : Int) = stride := by omega
    rw [Int.natCast_mul, hn0, hs0]
    rw [Int.add_mul] at this
    omega
  refine ⟨by omega, ?_⟩
  cases b with
  | buffer =>
    have hr0 : r = 0 := by simp only [Stripe.rows] at h1; omega
    simp only [Stripe.width] at hxw
    simp only [Stripe.size, hr0]
    omega
  | _ => exact hsize _ h1 hxw

/-- **The scratch plan is sound.** Whenever there is a plan, the search for its height ends (it is
a total function) with a stripe of at least one row, its floats are within the limit, and for
every stripe of the frame: the arrays carved are disjoint and lie within the floats planned, and
every element of a row a kernel call touches lies in its array. -/
theorem scratch_sound (l2 : Option Int) (p : NlmParams) (z : PlaneSize) (plan : NlmStripes)
    (mixed : Bool) (hplan : planStripes l2 p z = .ok plan) :
    1 ≤ plan.coreRows ∧ plan.floats * 4 ≤ nlmMaxScratch ∧
    (∀ y, 0 ≤ y → y < z.h → ∃ core0 core1, (core0, core1) ∈ stripesFrom plan.coreRows z.h 0 ∧
      core0 ≤ y ∧ y < core1) ∧
    ∀ core0 core1, (core0, core1) ∈ stripesFrom plan.coreRows z.h 0 →
      let st := stripe plan.halo z.h core0 core1
      let nc := numChannels p.channels
      (areas nc).Pairwise (fun b b' => st.start z.stride nc plan.accumArrays b +
        st.size z.w z.stride b ≤ st.start z.stride nc plan.accumArrays b') ∧
      (∀ b ∈ areas nc,
        st.start z.stride nc plan.accumArrays b + st.size z.w z.stride b ≤ plan.floats) ∧
      ∀ c ∈ st.runCalls p mixed, ∀ b r, c.touches b r → b ∈ areas nc ∧
        ∀ x, 0 ≤ x → x < Stripe.width z.w z.stride b →
          0 ≤ r * z.stride + x ∧ r * z.stride + x < st.size z.w z.stride b := by
  obtain ⟨hhalo, hacc, core, hcore, hpos, hle, hfloats, hlimit⟩ := planStripes_spec hplan
  have ha := p.a_pos
  have hs := p.s_nonneg
  refine ⟨by omega, hlimit, fun y hy hyh => stripesFrom_cover (by omega) hy hyh, ?_⟩
  intro core0 core1 hmem st nc
  obtain ⟨h0, h01, h1, hheight⟩ := stripesFrom_mem (Int.le_refl 0) hmem
  have hwithin : st.Within plan.halo z.h core0 core1 := stripe_within (by omega) h0 h01 h1
  rw [hfloats, hacc]
  refine ⟨st.carved z.w z.stride nc, hwithin.carved_le z rfl (by omega), ?_⟩
  intro c hc b r ht
  have hrow := hwithin.run_carved p c hc b r ht
  have hstride : 0 ≤ z.stride := by have := z.w_pos; have := z.w_le; omega
  exact ⟨hrow.1, fun x hx hxw => st.element_lt hrow hstride hx hxw⟩

theorem smallPlane_w_pos : (1 : Int) ≤ 5 := by decide

theorem smallPlane_h_pos : (1 : Int) ≤ 3 := by decide

theorem smallPlane_w : (5 : Int) ≤ 8 := by decide

theorem smallPlane_h : (3 : Int) < 2 ^ 31 := by decide

theorem smallPlane_stride : (8 : Int) < 2 ^ 31 := by decide

/-- A small plane, and its plan: one stripe of all three rows. -/
def smallPlane : PlaneSize where
  w := 5
  h := 3
  stride := 8
  w_pos := smallPlane_w_pos
  h_pos := smallPlane_h_pos
  w_le := smallPlane_w
  h_lt := smallPlane_h
  stride_lt := smallPlane_stride

theorem smallParams_pos : (1 : Int) ≤ 2 := by decide

theorem smallParams_a : (2 : Int) ≤ 64 := by decide

theorem smallParams_s : (1 : Int) ≤ 1024 := by decide

def smallParams : NlmParams where
  d := 1
  a := 2
  s := 1
  channels := .uv
  d_nonneg := by decide
  d_le := by decide
  a_pos := smallParams_pos
  a_le := smallParams_a
  s_nonneg := by decide
  s_le := smallParams_s

theorem planStripes_small : planStripes none smallParams smallPlane = .ok ⟨3, 4, 3, 173⟩ := by
  have hsearch : searchRows (stripeBytes smallPlane 3 4) nlmMaxScratch 3 1 = 3 := by
    rw [searchRows, if_pos (by decide), searchRows, if_pos (by decide), searchRows,
      if_neg (by decide)]
    rfl
  have hplan : planStripes none smallParams smallPlane =
      let core := searchRows (stripeBytes smallPlane 3 4) nlmMaxScratch 3 1
      if planFloats smallPlane 3 4 core > nlmMaxScratch / 4 then
        .error "nss.NLM: computed workspace exceeds the 1 MiB limit"
      else .ok ⟨3, 4, core, planFloats smallPlane 3 4 core⟩ := rfl
  rw [hplan, hsearch]
  rfl

theorem scratch_sound_small : 173 * 4 ≤ nlmMaxScratch :=
  (scratch_sound none smallParams smallPlane ⟨3, 4, 3, 173⟩ false planStripes_small).2.1

end NssFactory.Nlm
