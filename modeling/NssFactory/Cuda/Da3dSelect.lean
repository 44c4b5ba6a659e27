import NssFactory.Cuda.Da3dPyramid
import Mathlib.Data.Prod.Lex
import Mathlib.Tactic.IntervalCases

/-!
# What the weight pyramid of CUDA DA3D selects

Both paths of the kernel choose what `WeightMap` does. A key is the place of a pixel in the order
of the walk, so the least key of a square of level `3` is where the walk through the three levels
below would end. A warp leaves the square of level `4` it took with the minima of the new
weights, and the levels above wait for the next selection only where the patch was.
-/

namespace NssFactory.Cuda.Da3d

open NssFactory.Da3d (WeightMap Patch nextPow2 side)
open CInt Shuffles

variable {W : Type} [LinearOrder W]

/-! ## The key of a square -/

section Key

open NssFactory.Da3d (Holds)
open MinTree (least descend place descend_spec descend_place_le)

variable {m : WeightMap W} {leaf : Nat → Nat → W} {i j r c : Nat}

theorem quadrantKey_eq (hi : i < 8) (hj : j < 8) : quadrantKey i j = place 3 i j := by
  have hall : ∀ i < 8, ∀ j < 8, quadrantKey i j = place 3 i j := by decide
  exact hall i hi j hj

theorem keyRow_quadrantKey (hi : i < 8) (hj : j < 8) : keyRow (quadrantKey i j) = i := by
  have hall : ∀ i < 8, ∀ j < 8, keyRow (quadrantKey i j) = i := by decide
  exact hall i hi j hj

theorem keyCol_quadrantKey (hi : i < 8) (hj : j < 8) : keyCol (quadrantKey i j) = j := by
  have hall : ∀ i < 8, ∀ j < 8, keyCol (quadrantKey i j) = j := by decide
  exact hall i hi j hj

/-- A key is the place under its square. -/
theorem place_square (hi : i < 8) (hj : j < 8) : place 3 (8 * r + i) (8 * c + j) = quadrantKey i j := by
  rw [quadrantKey_eq hi hj]
  simp only [place]
  omega

/-- Keys are compared as pairs. -/
theorem toLex_better (a b : W × Nat) : toLex (better a b) = toLex a ⊓ toLex b := by
  have hlt : (b.1 < a.1 ∨ b.1 = a.1 ∧ b.2 < a.2) ↔ toLex b < toLex a := Prod.Lex.toLex_lt_toLex.symm
  rw [better]
  split_ifs with h
  · exact (min_eq_right (hlt.mp h).le).symm
  · exact (min_eq_left (not_lt.mp (mt hlt.mpr h))).symm

theorem laneKey_eq (hholds : Holds leaf m 0) (hr : 8 * r + 8 ≤ m.rows 0) (hc : 8 * c + 8 ≤ m.cols 0) {lane : Nat}
    (hlane : lane < 32) : laneKey m r c lane =
      some (better (leaf (8 * r + lane / 8) (8 * c + lane % 8), quadrantKey (lane / 8) (lane % 8))
        (leaf (8 * r + (lane / 8 + 4)) (8 * c + lane % 8), quadrantKey (lane / 8 + 4) (lane % 8))) := by
  have hshift : lane >>> 3 = lane / 8 := Nat.shiftRight_eq_div_pow _ _
  have hand : lane &&& 7 = lane % 8 := Nat.and_two_pow_sub_one_eq_mod lane 3
  have hcell : ∀ a < 8, m.entry 0 (8 * r + a) (8 * c + lane % 8) = some (leaf (8 * r + a) (8 * c + lane % 8)) :=
    fun a ha => hholds _ (by omega) _ (by omega)
  simp only [laneKey, hshift, hand, hcell (lane / 8) (by omega), Nat.add_assoc (8 * r) (lane / 8) 4,
    hcell (lane / 8 + 4) (by omega), Option.bind_eq_bind, Option.bind_some]

variable [OrderTop W]

/-- The least key of the 64 weights. -/
theorem squareKey_spec (hholds : Holds leaf m 0) (hr : 8 * r + 8 ≤ m.rows 0) (hc : 8 * c + 8 ≤ m.cols 0) :
    ∃ key, squareKey m (r, c) = some key ∧ ∀ a, a ≤ toLex key ↔
      ∀ i < 8, ∀ j < 8, a ≤ toLex (leaf (8 * r + i) (8 * c + j), quadrantKey i j) := by
  have hload := Da3d.mapM_some (l := List.range 32) fun lane hlane =>
    laneKey_eq hholds hr hc (List.mem_range.mp hlane)
  refine ⟨_, by rw [squareKey, hload]; rfl, fun a => ?_⟩
  rw [map_shuffled (g := toLex) toLex_better, le_warp_iff]
  have hlane : ∀ lane < 32, (((List.range 32).map fun lane =>
      better (leaf (8 * r + lane / 8) (8 * c + lane % 8), quadrantKey (lane / 8) (lane % 8))
        (leaf (8 * r + (lane / 8 + 4)) (8 * c + lane % 8), quadrantKey (lane / 8 + 4) (lane % 8))).getD lane (⊤, 0)) =
      better (leaf (8 * r + lane / 8) (8 * c + lane % 8), quadrantKey (lane / 8) (lane % 8))
        (leaf (8 * r + (lane / 8 + 4)) (8 * c + lane % 8), quadrantKey (lane / 8 + 4) (lane % 8)) := by
    intro lane hlane
    simp [List.getD_eq_getElem?_getD, List.getElem?_range hlane]
  constructor
  · intro h i hi j hj
    obtain hlow | hhigh : i < 4 ∨ 4 ≤ i := by omega
    · have hkey := h (8 * i + j) (by omega)
      rw [Function.comp_apply, hlane _ (by omega), toLex_better, le_inf_iff] at hkey
      rw [show (8 * i + j) / 8 = i by omega, show (8 * i + j) % 8 = j by omega] at hkey
      exact hkey.1
    · have hkey := h (8 * (i - 4) + j) (by omega)
      rw [Function.comp_apply, hlane _ (by omega), toLex_better, le_inf_iff] at hkey
      rw [show (8 * (i - 4) + j) / 8 + 4 = i by omega, show (8 * (i - 4) + j) % 8 = j by omega] at hkey
      exact hkey.2
  · intro h lane hlane'
    rw [Function.comp_apply, hlane lane hlane', toLex_better, le_inf_iff]
    exact ⟨h _ (by omega) _ (by omega), h _ (by omega) _ (by omega)⟩

/-- The least key is that of the pixel where the walk through the three levels ends. -/
theorem squareKey_descend (hholds : Holds leaf m 0) (hr : 8 * r + 8 ≤ m.rows 0) (hc : 8 * c + 8 ≤ m.cols 0) :
    ∃ key, squareKey m (r, c) = some key ∧
      (8 * r + keyRow key.2, 8 * c + keyCol key.2) = descend leaf 3 (r, c) := by
  obtain ⟨key, hkey, hleast⟩ := squareKey_spec hholds hr hc
  obtain ⟨⟨hi, hj⟩, hvalue⟩ := descend_spec leaf 3 (r, c)
  obtain ⟨d, hd⟩ : ∃ d, d = descend leaf 3 (r, c) := ⟨_, rfl⟩
  rw [← hd] at hi hj hvalue
  simp only at hi hj
  have hrow : d.1 = 8 * r + d.1 % 8 := by omega
  have hcol : d.2 = 8 * c + d.2 % 8 := by omega
  have hbest : ∀ i < 8, ∀ j < 8, toLex (leaf d.1 d.2, quadrantKey (d.1 % 8) (d.2 % 8)) ≤
      toLex (leaf (8 * r + i) (8 * c + j), quadrantKey i j) := by
    intro i hi' j hj'
    have hunder : MinTree.Under 3 (r, c).1 (r, c).2 (8 * r + i) (8 * c + j) := by
      constructor <;> simp only <;> omega
    have hle : leaf d.1 d.2 ≤ leaf (8 * r + i) (8 * c + j) := by
      rw [hvalue]
      exact MinTree.le_least_iff.mp (le_refl _) _ _ hunder
    rw [Prod.Lex.toLex_le_toLex]
    obtain hlt | heq := lt_or_eq_of_le hle
    · exact .inl hlt
    · refine .inr ⟨heq, ?_⟩
      have hplace := descend_place_le hunder (heq.symm.trans hvalue)
      rw [← hd, hrow, hcol, place_square (by omega) (by omega), place_square hi' hj'] at hplace
      exact hplace
  have heq : toLex key = toLex (leaf d.1 d.2, quadrantKey (d.1 % 8) (d.2 % 8)) := by
    refine le_antisymm ?_ ((hleast _).mpr hbest)
    have := (hleast _).mp (le_refl _) (d.1 % 8) (by omega) (d.2 % 8) (by omega)
    rwa [← hrow, ← hcol] at this
  refine ⟨key, hkey, ?_⟩
  rw [toLex.injective heq, keyRow_quadrantKey (by omega) (by omega), keyCol_quadrantKey (by omega) (by omega), ← hrow,
    ← hcol, ← hd]

end Key

/-! ## The choice -/

section Choose

open NssFactory.Da3d (Of Holds Tree Square padded)
open MinTree (least descend)

variable [OrderTop W] {h w l n x j : Nat} {m : WeightMap W} {weight : Nat → Nat → W} {s : Pyramid W} {q : Nat × Nat}

/-- What a plain min pyramid over the leaves chooses: the walk of the first minima from the top. -/
def choiceOf (threshold : W) (h w : Nat) (leaf : Nat → Nat → W) : Choice where
  go := decide (least leaf (levels h w - 1) 0 0 < threshold)
  pixel := descend leaf (levels h w - 1) (0, 0)

/-- A level-0 square of a core of the fast path lies in level `0`. -/
theorem block_le (hn : 16 ≤ n) (hn' : n ≤ 2 ^ 31) (hx : x < n) (hj : j ≤ 4) : (x / 2 ^ j + 1) * 2 ^ j ≤ nextPow2 n := by
  have hsize : 3 < (n - 1).size := Nat.lt_size.mpr (by omega)
  have hpow : nextPow2 n = 2 ^ ((n - 1).size - j) * 2 ^ j := by
    rw [Da3d.nextPow2_eq (by omega) (by omega), ← pow_add]
    congr 1
    omega
  have hlt : x / 2 ^ j < 2 ^ ((n - 1).size - j) := by
    rw [Nat.div_lt_iff_lt_mul (by positivity), ← hpow]
    exact hx.trans_le (Da3d.le_nextPow2 n)
  rw [hpow]
  exact Nat.mul_le_mul_right _ hlt

theorem five_le_levels (hh : 16 ≤ h) : kSharedLevel + 2 ≤ levels h w := by
  have hsize : 3 < (h - 1).size := Nat.lt_size.mpr (by omega)
  have hshared : kSharedLevel = 3 := rfl
  rw [levels, devBits_eq, devBits_eq]
  omega

/-- The walk from a cell down to level `3`. -/
theorem walk_spec (hh : 16 ≤ h) (hh' : h ≤ 2 ^ 31) (hw : 16 ≤ w) (hw' : w ≤ 2 ^ 31) (ho : Of h w m)
    (hholds : ∀ k < m.levels, k = 0 ∨ kSharedLevel ≤ k → Holds (padded h w weight) m k)
    (hl : l + kSharedLevel < m.levels) (hr : q.1 * 2 ^ (l + kSharedLevel) < h) (hc : q.2 * 2 ^ (l + kSharedLevel) < w) :
    ∃ q' : Nat × Nat, (List.range' kSharedLevel l).reverse.foldlM (fun q l => m.leastOfSquare l q) q = some q' ∧
      (q'.1 * 2 ^ kSharedLevel < h ∧ q'.2 * 2 ^ kSharedLevel < w) ∧
      descend (padded h w weight) (l + kSharedLevel) q = descend (padded h w weight) kSharedLevel q' := by
  induction l generalizing q with
  | zero =>
    rw [Nat.zero_add] at hr hc ⊢
    exact ⟨q, rfl, ⟨hr, hc⟩, rfl⟩
  | succ l ih =>
    rw [Nat.add_right_comm] at hr hc
    obtain ⟨q₁, hq₁, hstep, hr₁, hc₁⟩ := ho.leastOfSquare (.inl ⟨by omega, by omega⟩) hh' hw'
      (hholds (l + kSharedLevel) (by omega) (.inr (by omega))) (by omega) hr hc
    obtain ⟨q', hwalk, hcore, hdescend⟩ := ih (by omega) hr₁ hc₁
    refine ⟨q', ?_, hcore, ?_⟩
    · rw [List.range'_concat, List.reverse_append, List.reverse_singleton, List.singleton_append, List.foldlM_cons,
        show kSharedLevel + 1 * l = l + kSharedLevel by omega, hstep]
      exact hwalk
    · rw [← hdescend, Nat.add_right_comm, MinTree.descend, ← hq₁]

/-- The selection of the fast path, and the levels after it. -/
theorem fastSelect_spec (threshold : W) (hh : 16 ≤ h) (hh' : h ≤ 2 ^ 31) (hw : 16 ≤ w) (hw' : w ≤ 2 ^ 31)
    (hq : s.prev.Placed h w) (hs : Waiting h w (padded h w weight) s.prev (kSharedLevel + 2) s.map) :
    ∃ m', fastSelect threshold s = some (choiceOf threshold h w (padded h w weight), ⟨m', s.prev⟩) ∧ Of h w m' ∧
      ∀ k < m'.levels, k = 0 ∨ kSharedLevel ≤ k → Holds (padded h w weight) m' k := by
  have hshared : kSharedLevel = 3 := rfl
  have hlevels : kSharedLevel + 2 ≤ levels h w := five_le_levels hh
  obtain ⟨m', hrefresh, ho, hholds⟩ := refresh_waiting hq (by omega) hh' (by omega) hw' hs
    (by rw [hs.of.levels, ← levels_eq]; exact hlevels)
  have hm' : m'.levels = levels h w := ho.levels.trans (levels_eq h w).symm
  have htwo := Da3d.two_le_side (n := h) (by omega) hh' (levels h w - 1)
  have htwo' := Da3d.two_le_side (n := w) (by omega) hw' (levels h w - 1)
  have htop : m'.minimum = some (least (padded h w weight) (levels h w - 1) 0 0) := by
    rw [WeightMap.minimum, hm']
    exact hholds _ (by omega) (.inr (by omega)) 0 (by rw [ho.rows]; omega) 0 (by rw [ho.cols]; omega)
  have hsplit : levels h w - 1 - kSharedLevel + kSharedLevel = levels h w - 1 := by omega
  obtain ⟨q, hwalk, ⟨hr, hc⟩, hdescend⟩ := walk_spec (l := levels h w - 1 - kSharedLevel)
    (q := (0, 0)) hh hh' hw hw' ho hholds (by omega) (by omega) (by omega)
  have hblock : ∀ {n x : Nat}, 16 ≤ n → n ≤ 2 ^ 31 → x * 2 ^ kSharedLevel < n → 8 * x + 8 ≤ nextPow2 n := by
    intro n x hn hn' hx
    have h' := block_le hn hn' hx (j := 3) (by decide)
    rw [hshared, Nat.mul_div_cancel _ (by decide)] at h'
    omega
  obtain ⟨key, hkey, hpixel⟩ := squareKey_descend (r := q.1) (c := q.2) (hholds 0 (by omega) (.inl rfl))
    (by rw [ho.rows]; exact hblock hh hh' hr) (by rw [ho.cols]; exact hblock hw hw' hc)
  refine ⟨m', ?_, ho, hholds⟩
  rw [hsplit] at hdescend
  simp only [fastSelect, hrefresh, htop, hm', hwalk, hkey, hpixel, Option.bind_eq_bind, Option.bind_some, choiceOf,
    hdescend]
  rfl

omit [OrderTop W] in
theorem one_le_levels : 1 ≤ levels h w := le_max_of_le_left (by omega)

/-- The selection of the plain path. -/
theorem plainSelect_spec (threshold : W) (hsquare : Square h w) (hh' : h ≤ 2 ^ 31) (hw' : w ≤ 2 ^ 31)
    (hs : Tree h w (padded h w weight) s.map) :
    plainSelect threshold s = some (choiceOf threshold h w (padded h w weight), s) := by
  have hpos : 0 < h ∧ 0 < w := by
    rcases hsquare with hs | hs <;> omega
  have hlevels : s.map.levels = levels h w := hs.of.levels.trans (levels_eq h w).symm
  have hone : 1 ≤ levels h w := one_le_levels
  obtain ⟨hr, hc⟩ := hs.of.over hsquare hh' hw' (l := levels h w - 1) (r := 0) (c := 0) (by omega) (by omega) (by omega)
  have htop : s.map.minimum = some (least (padded h w weight) (levels h w - 1) 0 0) := by
    rw [WeightMap.minimum, hlevels]
    exact hs.holds _ (by omega) 0 hr 0 hc
  have hfind : s.map.findMinimum = some (descend (padded h w weight) (levels h w - 1) (0, 0)) := by
    rw [WeightMap.findMinimum, hlevels]
    exact (hs.descend hsquare hh' hw' (by omega) (by omega) (by omega)).1
  rw [plainSelect, htop, hfind]
  rfl

end Choose

/-! ## A patch on level 0 -/

section Leaves

open NssFactory.Da3d (padded added)

variable [OrderTop W] [AddZeroClass W] {h w r c : Nat} {p : Patch W} {weight : Nat → Nat → W}

/-- The pixels of the core that a patch covers. -/
def Covered (h w : Nat) (p : Patch W) (r c : Nat) : Prop :=
  (r < h ∧ c < w) ∧ (p.row ≤ r + 31 ∧ r < p.row + 33) ∧ p.col ≤ c + 31 ∧ c < p.col + 33

instance : Decidable (Covered h w p r c) := inferInstanceAs (Decidable (_ ∧ _))

omit [LinearOrder W] [OrderTop W] [AddZeroClass W] in
theorem covered_iff : Covered h w p r c ↔
    ((rectOf h w p).firstR ≤ r ∧ r ≤ (rectOf h w p).lastR) ∧
      (rectOf h w p).firstC ≤ c ∧ c ≤ (rectOf h w p).lastC := by
  simp only [Covered, rectOf]
  omega

omit [LinearOrder W] [OrderTop W] [AddZeroClass W] in
theorem over_zero_iff (hrow : p.row < h) (hcol : p.col < w) : (rectOf h w p).Over 0 r c ↔ Covered h w p r c := by
  rw [rectOf_core hrow hcol, over_core (by omega) (by omega), Da3d.within_zero, Covered]
  omega

theorem padded_added (r c : Nat) : padded h w (added p weight) r c =
    if Covered h w p r c then padded h w weight r c + p.k ((r + 31 - p.row) * 64 + (c + 31 - p.col))
    else padded h w weight r c := by
  by_cases hcore : r < h ∧ c < w
  · rw [padded, padded, if_pos hcore, if_pos hcore, added]
    by_cases hpatch : (p.row ≤ r + 31 ∧ r < p.row + 33) ∧ p.col ≤ c + 31 ∧ c < p.col + 33
    · rw [if_pos hpatch, if_pos ⟨hcore, hpatch⟩]
    · rw [if_neg hpatch, if_neg fun h' => hpatch h'.2]
  · rw [padded, padded, if_neg hcore, if_neg hcore, if_neg fun h' => hcore h'.1]

theorem padded_of_not_covered (hout : ¬Covered h w p r c) :
    padded h w weight r c = padded h w (added p weight) r c := by
  rw [padded_added, if_neg hout]

omit [LinearOrder W] [OrderTop W] [AddZeroClass W] in
/-- The element that a lane finds in the staged buffer. -/
theorem staged_eq (hin : Covered h w p r c) :
    staged p.k (((r : Int) - ((p.row : Int) - 31)) * 65 - ((p.col : Int) - 31) + c).toNat =
      p.k ((r + 31 - p.row) * 64 + (c + 31 - p.col)) := by
  obtain ⟨-, hr, hc⟩ := hin
  have hindex : (((r : Int) - ((p.row : Int) - 31)) * 65 - ((p.col : Int) - 31) + c).toNat =
      65 * (r + 31 - p.row) + (c + 31 - p.col) := by omega
  rw [staged, hindex, Nat.mul_add_div (by decide), Nat.mul_add_mod, Nat.div_eq_of_lt (by omega),
    Nat.mod_eq_of_lt (by omega), Nat.add_zero]

/-- A weight in a lane's registers after the patch. -/
theorem laneWeight_eq (R4 C4 lane : Nat) {t : Nat} (ht : t < 8) :
    laneWeight (rectOf h w p) p R4 C4 lane (padded h w weight (laneRow R4 lane) (laneCol C4 lane + t)) t =
      padded h w (added p weight) (laneRow R4 lane) (laneCol C4 lane + t) := by
  rw [padded_added, laneWeight, raised]
  by_cases hin : Covered h w p (laneRow R4 lane) (laneCol C4 lane + t)
  · obtain ⟨hrow, hcol⟩ := covered_iff.mp hin
    have htouched : touched (rectOf h w p) (laneRow R4 lane) (laneCol C4 lane) = true := by
      simp only [touched, decide_eq_true_eq]
      omega
    rw [if_pos hin, if_pos htouched, if_pos hcol, staged_eq hin]
  · rw [if_neg hin]
    split_ifs with htouched hcol
    · simp only [touched, decide_eq_true_eq] at htouched
      exact absurd (covered_iff.mpr ⟨⟨htouched.1, htouched.2.1⟩, hcol⟩) hin
    · rfl
    · rfl

end Leaves

/-! ## A square of the fast path -/

section SquareStep

open NssFactory.Da3d (padded added Of Holds)
open MinTree (least)

variable [OrderTop W] [AddZeroClass W] {h w : Nat} {p : Patch W} {weight : Nat → Nat → W} {m m' : WeightMap W}
  {S S' : CellSet} {v : Nat → Nat → Nat → W} {R : Nat × Nat} {a : W} {leaf : Nat → Nat → W}

omit [LinearOrder W] [OrderTop W] [AddZeroClass W] in
/-- Cells that hold their values count as written. -/
theorem Written.extend (hm : Written m m' S v) (hsub : ∀ l r c, S l r c → S' l r c)
    (hheld : ∀ l r c, r < m.rows l → c < m.cols l → S' l r c → ¬S l r c → m.entry l r c = some (v l r c)) :
    Written m m' S' v := by
  refine ⟨hm.shape, fun l r c hr hc hin => ?_,
    fun l r c hr hc hout => hm.stale l r c hr hc fun hin => hout (hsub _ _ _ hin)⟩
  by_cases hS : S l r c
  · exact hm.fresh l r c hr hc hS
  · rw [hm.stale l r c hr hc hS, hheld l r c hr hc hin hS]

/-- The cells that a warp keeps under a square of level `4`. -/
def SquareCells (R : Nat × Nat) (l r c : Nat) : Prop :=
  (l = 0 ∧ r / 16 = R.1 ∧ c / 16 = R.2) ∨ (l = 3 ∧ r / 2 = R.1 ∧ c / 2 = R.2) ∨ l = 4 ∧ r = R.1 ∧ c = R.2

omit [OrderTop W] [AddZeroClass W] in
theorem le_rowMin_iff {x : Nat → W} : a ≤ rowMin x ↔ ∀ t < 8, a ≤ x t := by
  simp only [rowMin, le_min_iff]
  constructor
  · rintro ⟨⟨⟨h₀, h₁⟩, h₂, h₃⟩, ⟨h₄, h₅⟩, h₆, h₇⟩ t ht
    interval_cases t <;> assumption
  · intro h
    exact ⟨⟨⟨h 0 (by decide), h 1 (by decide)⟩, h 2 (by decide), h 3 (by decide)⟩,
      ⟨h 4 (by decide), h 5 (by decide)⟩, h 6 (by decide), h 7 (by decide)⟩

theorem lane_bits {lane : Nat} (hlane : lane < 32) :
    (lane >>> 3 &&& 1) = lane / 8 % 2 ∧ lane >>> 4 = lane / 16 ∧ (lane &&& 7) = lane % 8 := by
  have hall : ∀ lane < 32, (lane >>> 3 &&& 1) = lane / 8 % 2 ∧ lane >>> 4 = lane / 16 ∧ (lane &&& 7) = lane % 8 := by
    decide
  exact hall lane hlane

theorem laneRow_eq (R4 : Nat) {lane : Nat} (hlane : lane < 32) :
    laneRow R4 lane = 16 * R4 + 8 * (lane / 8 % 2) + lane % 8 := by
  obtain ⟨hdr, -, hj⟩ := lane_bits hlane
  rw [laneRow, hdr, hj]

theorem laneCol_eq (C4 : Nat) {lane : Nat} (hlane : lane < 32) : laneCol C4 lane = 16 * C4 + 8 * (lane / 16) := by
  rw [laneCol, (lane_bits hlane).2.1]

omit [OrderTop W] [AddZeroClass W] in
/-- The minimum of level `3` that the first lane of eight ends with. -/
theorem least3_eq {x : Nat → Nat → W}
    (hx : ∀ lane < 32, ∀ t < 8, x lane t = leaf (laneRow R.1 lane) (laneCol R.2 lane + t))
    {lane : Nat} (hlane : lane < 32) (hfirst : lane % 8 = 0) :
    shuffled min [1, 2, 4] (fun lane => rowMin (x lane)) lane =
      least leaf kSharedLevel (2 * R.1 + lane / 8 % 2) (2 * R.2 + lane / 16) := by
  have hreach : ∀ k, k ∈ reach [1, 2, 4] ↔ k < 8 := by
    intro k
    constructor
    · revert k
      decide
    · intro hk
      have hall : ∀ k < 8, k ∈ reach [1, 2, 4] := by decide
      exact hall k hk
  have hxor : ∀ k < 8, lane ^^^ k = lane + k := by
    have hall : ∀ lane < 32, lane % 8 = 0 → ∀ k < 8, lane ^^^ k = lane + k := by decide
    exact hall lane hlane hfirst
  refine eq_of_forall_le_iff fun a => ?_
  have hshuffled : a ≤ shuffled min [1, 2, 4] (fun lane => rowMin (x lane)) lane ↔
      ∀ k ∈ reach [1, 2, 4], a ≤ rowMin (x (lane ^^^ k)) := le_shuffled_iff
  rw [hshuffled, MinTree.le_least_block]
  have hrow : ∀ k < 8, ∀ t < 8, x (lane + k) t =
      leaf (2 ^ kSharedLevel * (2 * R.1 + lane / 8 % 2) + k) (2 ^ kSharedLevel * (2 * R.2 + lane / 16) + t) := by
    intro k hk t ht
    rw [hx _ (by omega) t ht, laneRow_eq _ (by omega), laneCol_eq _ (by omega)]
    congr 1
    · simp only [kSharedLevel]
      omega
    · simp only [kSharedLevel]
      omega
  constructor
  · intro h k hk t ht
    have hk' := h k ((hreach k).mpr hk)
    rw [hxor k hk, le_rowMin_iff] at hk'
    exact hrow k hk t ht ▸ hk' t ht
  · intro h k hk
    have hk := (hreach k).mp hk
    rw [hxor k hk, le_rowMin_iff]
    intro t ht
    exact (hrow k hk t ht).symm ▸ h k hk t ht

omit [OrderTop W] [AddZeroClass W] in
/-- The minimum of level `4` that lane 0 ends with. -/
theorem least4_eq {x : Nat → Nat → W}
    (hx : ∀ lane < 32, ∀ t < 8, x lane t = leaf (laneRow R.1 lane) (laneCol R.2 lane + t)) :
    shuffled min [8, 16] (shuffled min [1, 2, 4] fun lane => rowMin (x lane)) 0 =
      least leaf (kSharedLevel + 1) R.1 R.2 := by
  refine eq_of_forall_le_iff fun a => ?_
  have hshuffled : a ≤ shuffled min [8, 16] (shuffled min [1, 2, 4] fun lane => rowMin (x lane)) 0 ↔
      ∀ k ∈ reach [8, 16], a ≤ shuffled min [1, 2, 4] (fun lane => rowMin (x lane)) (0 ^^^ k) := le_shuffled_iff
  have hreach : reach [8, 16] = [0, 16, 8, 24] := by decide
  rw [hshuffled, hreach, least, MinTree.le_square_iff]
  simp only [Nat.zero_xor, List.forall_mem_cons, List.not_mem_nil, false_implies, implies_true, and_true]
  rw [least3_eq hx (by decide) (by decide), least3_eq hx (by decide) (by decide), least3_eq hx (by decide) (by decide),
    least3_eq hx (by decide) (by decide)]
  constructor
  · rintro ⟨h₀, h₁, h₂, h₃⟩ s hs t ht
    interval_cases s <;> interval_cases t <;> assumption
  · intro h
    exact ⟨h 0 (by decide) 0 (by decide), h 0 (by decide) 1 (by decide), h 1 (by decide) 0 (by decide),
      h 1 (by decide) 1 (by decide)⟩

omit [LinearOrder W] [OrderTop W] [AddZeroClass W] in
/-- The stores of a lane, whose row is covered or holds its values. -/
theorem storeRow_written {q : Rect} {x : Nat → Nat → W} {lane : Nat}
    (hx : ∀ t < 8, x lane t = v 0 (laneRow R.1 lane) (laneCol R.2 lane + t))
    (hr : laneRow R.1 lane < m.rows 0) (hc : laneCol R.2 lane + 8 ≤ m.cols 0) :
    ∃ m', storeRow q R.1 R.2 x m lane = some m' ∧ Written m m' (fun l r c =>
      l = 0 ∧ touched q (laneRow R.1 lane) (laneCol R.2 lane) ∧ r = laneRow R.1 lane ∧
        ∃ t < 8, c = laneCol R.2 lane + t) v := by
  by_cases htouched : touched q (laneRow R.1 lane) (laneCol R.2 lane)
  · have hloop : ∃ m', (List.range 8).foldlM
        (fun m t => m.put 0 (laneRow R.1 lane) (laneCol R.2 lane + t) (x lane t)) m = some m' ∧ Written m m' (fun l r c => ∃ t ∈ List.range 8, l = 0 ∧ r = laneRow R.1 lane ∧
          c = laneCol R.2 lane + t) v := by
      refine written_foldlM fun done t rest hitems s hs => ?_
      have ht : t < 8 := List.mem_range.mp (by rw [hitems]; simp)
      exact written_put (by rw [hs.shape.rows]; exact hr) (by rw [hs.shape.cols]; omega) (hx t ht)
    obtain ⟨m', hstores, hm'⟩ := hloop
    refine ⟨m', by rw [storeRow, if_pos htouched, hstores], hm'.congr fun l r c => ?_⟩
    simp only [List.mem_range]
    constructor
    · rintro ⟨t, ht, rfl, rfl, rfl⟩
      exact ⟨rfl, htouched, rfl, t, ht, rfl⟩
    · rintro ⟨rfl, -, rfl, t, ht, rfl⟩
      exact ⟨t, ht, rfl, rfl, rfl⟩
  · exact ⟨m, by rw [storeRow, if_neg htouched], (Written.refl m v).congr fun l r c =>
      ⟨False.elim, fun h' => htouched h'.2.1⟩⟩

omit [AddZeroClass W] [OrderTop W] in
/-- A warp leaves its square with the minima of the new leaves. -/
theorem storeSquare_written {q : Rect} {x : Nat → Nat → W}
    (hx : ∀ lane < 32, ∀ t < 8, x lane t = leaf (laneRow R.1 lane) (laneCol R.2 lane + t))
    (hr : 16 * R.1 + 16 ≤ m.rows 0) (hc : 16 * R.2 + 16 ≤ m.cols 0)
    (hr₃ : 2 * R.1 + 1 < m.rows 3) (hc₃ : 2 * R.2 + 1 < m.cols 3) (hr₄ : R.1 < m.rows 4) (hc₄ : R.2 < m.cols 4)
    (hheld : ∀ lane < 32, ¬touched q (laneRow R.1 lane) (laneCol R.2 lane) → ∀ t < 8,
      m.entry 0 (laneRow R.1 lane) (laneCol R.2 lane + t) = some (leaf (laneRow R.1 lane) (laneCol R.2 lane + t))) :
    ∃ m', storeSquare q R x m = some m' ∧ Written m m' (SquareCells R) (least leaf) := by
  have hrows : ∃ m₁, (List.range 32).foldlM (storeRow q R.1 R.2 x) m = some m₁ ∧
      Written m m₁ (fun l r c => ∃ lane ∈ List.range 32, l = 0 ∧
        touched q (laneRow R.1 lane) (laneCol R.2 lane) ∧ r = laneRow R.1 lane ∧ ∃ t < 8, c = laneCol R.2 lane + t)
        (least leaf) := by
    refine written_foldlM fun done lane rest hitems s hs => ?_
    have hlane : lane < 32 := List.mem_range.mp (by rw [hitems]; simp)
    have hrow := laneRow_eq R.1 hlane
    have hcol := laneCol_eq R.2 hlane
    exact storeRow_written (fun t ht => hx lane hlane t ht) (by rw [hs.shape.rows]; omega)
      (by rw [hs.shape.cols]; omega)
  obtain ⟨m₁, hstores, hm₁⟩ := hrows
  have hthree : ∃ m₂, ((List.range 32).filter fun lane => lane &&& 7 = 0).foldlM (fun m lane =>
      m.put kSharedLevel (2 * R.1 + (lane >>> 3 &&& 1)) (2 * R.2 + lane >>> 4)
        (shuffled min [1, 2, 4] (fun lane => rowMin (x lane)) lane)) m₁ = some m₂ ∧
      Written m₁ m₂ (fun l r c => ∃ lane ∈ (List.range 32).filter fun lane => lane &&& 7 = 0,
        l = kSharedLevel ∧ r = 2 * R.1 + (lane >>> 3 &&& 1) ∧ c = 2 * R.2 + lane >>> 4) (least leaf) := by
    refine written_foldlM fun done lane rest hitems s hs => ?_
    have hmem : lane ∈ (List.range 32).filter fun lane => lane &&& 7 = 0 := by rw [hitems]; simp
    obtain ⟨hlane, hand⟩ := List.mem_filter.mp hmem
    have hlane := List.mem_range.mp hlane
    obtain ⟨hdr, hdc, hj⟩ := lane_bits hlane
    have hfirst : lane % 8 = 0 := by rw [← hj]; exact of_decide_eq_true hand
    refine written_put (by rw [hs.shape.rows, hm₁.shape.rows, hdr]; simp only [kSharedLevel]; omega)
      (by rw [hs.shape.cols, hm₁.shape.cols, hdc]; simp only [kSharedLevel]; omega) ?_
    rw [least3_eq hx hlane hfirst, hdr, hdc]
  obtain ⟨m₂, hput₃, hm₂⟩ := hthree
  obtain ⟨m₃, hput₄, hm₃⟩ := written_put (m := m₂) (l := kSharedLevel + 1) (r := R.1) (c := R.2)
    (by rw [hm₂.shape.rows, hm₁.shape.rows]; exact hr₄) (by rw [hm₂.shape.cols, hm₁.shape.cols]; exact hc₄)
    (least4_eq hx)
  refine ⟨m₃, ?_, ((hm₁.trans hm₂).trans hm₃).extend ?_ ?_⟩
  · simp only [storeSquare, hstores, Option.bind_eq_bind, Option.bind_some, hput₃, hput₄]
  · rintro l r c ((⟨lane, hlane, rfl, -, rfl, t, ht, rfl⟩ | ⟨lane, hlane, rfl, rfl, rfl⟩) | ⟨rfl, rfl, rfl⟩)
    · have hlane := List.mem_range.mp hlane
      rw [SquareCells, laneRow_eq _ hlane, laneCol_eq _ hlane]
      omega
    · obtain ⟨hdr, hdc, -⟩ := lane_bits (List.mem_range.mp (List.mem_filter.mp hlane).1)
      have hlane := List.mem_range.mp (List.mem_filter.mp hlane).1
      rw [hdr, hdc]
      exact .inr (.inl ⟨rfl, by omega, by omega⟩)
    · exact .inr (.inr ⟨rfl, rfl, rfl⟩)
  · rintro l r c hr' hc' (⟨rfl, hrow, hcol⟩ | ⟨rfl, hrow, hcol⟩ | ⟨rfl, hrow, hcol⟩) hout
    · -- the lane of the pixel has left its row alone
      have hlane : r % 16 / 8 * 8 + c % 16 / 8 * 16 + r % 8 < 32 := by omega
      have hr₀ : laneRow R.1 (r % 16 / 8 * 8 + c % 16 / 8 * 16 + r % 8) = r := by
        rw [laneRow_eq _ hlane]
        omega
      have hc₀ : laneCol R.2 (r % 16 / 8 * 8 + c % 16 / 8 * 16 + r % 8) + c % 8 = c := by
        rw [laneCol_eq _ hlane]
        omega
      have hentry := hheld _ hlane (fun htouched => hout (.inl (.inl ⟨_, List.mem_range.mpr hlane, rfl, htouched,
        hr₀.symm, c % 8, Nat.mod_lt _ (by decide), hc₀.symm⟩))) (c % 8) (Nat.mod_lt _ (by decide))
      rwa [hr₀, hc₀] at hentry
    · refine absurd (.inl (.inr ⟨r % 2 * 8 + c % 2 * 16, ?_, rfl, ?_, ?_⟩)) hout
      · have hmod : ∀ a < 2, ∀ b < 2, a * 8 + b * 16 ∈ (List.range 32).filter fun lane => lane &&& 7 = 0 := by decide
        exact hmod _ (Nat.mod_lt _ (by decide)) _ (Nat.mod_lt _ (by decide))
      · rw [(lane_bits (by omega)).1]
        omega
      · rw [(lane_bits (by omega)).2.1]
        omega
    · exact absurd (.inr ⟨rfl, hrow, hcol⟩) hout

/-- A warp's step on a square that holds the old leaves. -/
theorem squareStep_written (hrow : p.row < h) (hcol : p.col < w) (hh : 16 ≤ h) (hh' : h ≤ 2 ^ 31) (hw : 16 ≤ w)
    (hw' : w ≤ 2 ^ 31) (ho : Of h w m) (hover : (rectOf h w p).Over 4 R.1 R.2)
    (hold : ∀ r c, r / 16 = R.1 → c / 16 = R.2 → m.entry 0 r c = some (padded h w weight r c)) :
    ∃ m', squareStep (rectOf h w p) p m R = some m' ∧
      Written m m' (SquareCells R) (least (padded h w (added p weight))) := by
  obtain ⟨⟨hr₃, hc₃⟩, hr₄, hc₄⟩ := (rectOf_placed hrow hcol).bounds (by omega) hh' (by omega) hw' hover
  obtain ⟨⟨-, hlastR⟩, -, hlastC⟩ :=
    (over_core (by omega) (by omega)).mp (show Rect.Over ⟨_, _, _, _⟩ 4 R.1 R.2 from rectOf_core hrow hcol ▸ hover)
  have hblock := block_le hh hh' (x := min h (p.row + 33) - 1) (by omega) (j := 4) (by decide)
  have hblock' := block_le hw hw' (x := min w (p.col + 33) - 1) (by omega) (j := 4) (by decide)
  have hr : 16 * R.1 + 16 ≤ m.rows 0 := by
    rw [ho.rows, side]
    omega
  have hc : 16 * R.2 + 16 ≤ m.cols 0 := by
    rw [ho.cols, side]
    omega
  have hcell : ∀ lane < 32, ∀ t < 8, m.entry 0 (laneRow R.1 lane) (laneCol R.2 lane + t) =
      some (padded h w weight (laneRow R.1 lane) (laneCol R.2 lane + t)) := by
    intro lane hlane t ht
    rw [laneRow_eq _ hlane, laneCol_eq _ hlane]
    exact hold _ _ (by omega) (by omega)
  have hload := Da3d.mapM_some (l := List.range 32) fun lane hlane => Da3d.mapM_some (l := List.range 8) fun t ht =>
    hcell lane (List.mem_range.mp hlane) t (List.mem_range.mp ht)
  obtain ⟨m', hstores, hm'⟩ := storeSquare_written (q := rectOf h w p) (R := R) (m := m)
    (x := fun lane t => laneWeight (rectOf h w p) p R.1 R.2 lane
      ((((List.range 32).map fun lane => (List.range 8).map fun t =>
        padded h w weight (laneRow R.1 lane) (laneCol R.2 lane + t)).getD lane []).getD t ⊤) t)
    (fun lane hlane t ht => by
      have hloaded : (((List.range 32).map fun lane => (List.range 8).map fun t =>
          padded h w weight (laneRow R.1 lane) (laneCol R.2 lane + t)).getD lane []).getD t ⊤ =
            padded h w weight (laneRow R.1 lane) (laneCol R.2 lane + t) := by
        simp [List.getD_eq_getElem?_getD, List.getElem?_range hlane, List.getElem?_range ht]
      rw [hloaded]
      exact laneWeight_eq R.1 R.2 lane ht)
    hr hc (by rw [ho.rows]; exact hr₃) (by rw [ho.cols]; exact hc₃) (by rw [ho.rows]; exact hr₄)
    (by rw [ho.cols]; exact hc₄) fun lane hlane htouched t ht => by
      rw [hcell lane hlane t ht, ← laneWeight_eq R.1 R.2 lane ht, laneWeight, if_neg htouched]
  refine ⟨m', ?_, hm'⟩
  rw [squareStep, hload]
  exact hstores

end SquareStep

/-! ## The updates -/

section Updates

open NssFactory.Da3d (padded added Of Holds Tree Risen Square)
open MinTree (least)

variable [OrderTop W] [AddZeroClass W] {h w : Nat} {p : Patch W} {weight : Nat → Nat → W} {m : WeightMap W}
  {s : Pyramid W} {order : Nat → List Nat}

omit [LinearOrder W] [OrderTop W] [AddZeroClass W] in
/-- The square over a cell of the rectangle. -/
theorem over_four (hrow : p.row < h) (hcol : p.col < w) {l r c : Nat} (hl : l ≤ 4) (hover : (rectOf h w p).Over l r c) :
    (rectOf h w p).Over 4 (r / 2 ^ (4 - l)) (c / 2 ^ (4 - l)) := by
  rw [rectOf_core hrow hcol, over_core (by omega) (by omega)] at hover ⊢
  have hpow : 2 ^ 4 = 2 ^ l * 2 ^ (4 - l) := by rw [← pow_add, Nat.add_sub_cancel' hl]
  obtain ⟨⟨hr, hr'⟩, hc, hc'⟩ := hover
  simp only [Da3d.Within, hpow, ← Nat.div_div_eq_div_mul]
  exact ⟨⟨Nat.div_le_div_right hr, Nat.div_le_div_right hr'⟩, Nat.div_le_div_right hc, Nat.div_le_div_right hc'⟩

/-- The leaves off a patch. -/
theorem leaf_of_not_over (hrow : p.row < h) (hcol : p.col < w) (i j : Nat) (hout : ¬(rectOf h w p).Over 0 i j) :
    padded h w weight i j = padded h w (added p weight) i j :=
  padded_of_not_covered (mt (over_zero_iff hrow hcol).mpr hout)

/-- The update of the fast path, whatever order the warps come to their squares in: the levels
above the squares wait where the patch was. -/
theorem fastUpdate_spec (horder : ∀ n, (order n).Perm (List.range n)) (hrow : p.row < h) (hcol : p.col < w)
    (hh : 16 ≤ h) (hh' : h ≤ 2 ^ 31) (hw : 16 ≤ w) (hw' : w ≤ 2 ^ 31) (ho : Of h w s.map)
    (hholds : ∀ k < s.map.levels, k = 0 ∨ kSharedLevel ≤ k → Holds (padded h w weight) s.map k) :
    ∃ m', fastUpdate order p s = some ⟨m', rectOf h w p⟩ ∧
      Waiting h w (padded h w (added p weight)) (rectOf h w p) (kSharedLevel + 2) m' := by
  have hshared : kSharedLevel = 3 := rfl
  have hlevels : kSharedLevel + 2 ≤ s.map.levels := by
    rw [ho.levels, ← levels_eq]
    exact five_le_levels hh
  have hmem : ∀ x, x ∈ (order ((rectOf h w p).count 4)).map ((rectOf h w p).cell 4) ↔
      (rectOf h w p).Over 4 x.1 x.2 := fun x => ((horder _).map _).mem_iff
  have hnodup : ((order ((rectOf h w p).count 4)).map ((rectOf h w p).cell 4)).Nodup := by
    refine (((horder _).map _).nodup_iff).mpr (List.Nodup.map_on (fun i _ j _ hij => ?_) List.nodup_range)
    rw [rectOf_core hrow hcol] at hij
    exact cell_inj (by omega) hij
  have hloop : ∃ m', ((order ((rectOf h w p).count 4)).map ((rectOf h w p).cell 4)).foldlM
      (squareStep (rectOf h w p) p) s.map = some m' ∧
      Written s.map m' (fun l r c => ∃ x ∈ (order ((rectOf h w p).count 4)).map ((rectOf h w p).cell 4),
        SquareCells x l r c) (least (padded h w (added p weight))) := by
    refine written_foldlM fun done x rest hitems t ht => ?_
    have hover : (rectOf h w p).Over 4 x.1 x.2 := (hmem x).mp (by rw [hitems]; simp)
    have hnew : x ∉ done := by
      rw [hitems] at hnodup
      exact fun hin => (List.nodup_append.mp hnodup).2.2 x hin x List.mem_cons_self rfl
    have hplaced := (rectOf_placed hrow hcol).bounds (by omega) hh' (by omega) hw' hover
    refine squareStep_written hrow hcol hh hh' hw hw' (ho.shape ht.shape) hover fun r c hr hc => ?_
    have hin : r < s.map.rows 0 ∧ c < s.map.cols 0 := by
      obtain ⟨⟨-, hlastR⟩, -, hlastC⟩ :=
        (over_core (by omega) (by omega)).mp (show Rect.Over ⟨_, _, _, _⟩ 4 x.1 x.2 from rectOf_core hrow hcol ▸ hover)
      have hblock := block_le hh hh' (x := min h (p.row + 33) - 1) (by omega) (j := 4) (by decide)
      have hblock' := block_le hw hw' (x := min w (p.col + 33) - 1) (by omega) (j := 4) (by decide)
      rw [ho.rows, ho.cols, side, side]
      omega
    rw [ht.stale 0 r c hin.1 hin.2]
    · exact hholds 0 (by omega) (.inl rfl) r hin.1 c hin.2
    · rintro ⟨y, hy, ⟨-, hr', hc'⟩ | ⟨h₃, -⟩ | ⟨h₄, -⟩⟩
      · have heq : y = x := Prod.ext (hr'.symm.trans hr) (hc'.symm.trans hc)
        exact hnew (heq ▸ hy)
      · cases h₃
      · cases h₄
  obtain ⟨m', hsteps, hm'⟩ := hloop
  have hm'_levels : m'.levels = s.map.levels := hm'.shape.levels
  have hkept : ∀ k, k < s.map.levels → k = 0 ∨ kSharedLevel ≤ k → ∀ r < s.map.rows k, ∀ c < s.map.cols k,
      ¬(rectOf h w p).Over k r c → s.map.entry k r c = some (least (padded h w (added p weight)) k r c) := by
    intro k hk hkept r hr c hc hout
    rw [hholds k hk hkept r hr c hc,
      least_of_not_over (rectOf_placed hrow hcol) (leaf_of_not_over hrow hcol) hout]
  refine ⟨m', ?_, ho.shape hm'.shape, fun k hk hk' hk'' => hm'.holds (fun r c _ => rfl) fun r hr c hc hout => ?_,
    fun k hk hk' r hr c hc hout => ?_⟩
  · rw [fastUpdate, ho.height, ho.width, hsteps]
    rfl
  · refine hkept k (by omega) hk' r hr c hc fun hover => hout ?_
    have hfour := over_four hrow hcol (by omega) hover
    refine ⟨_, (hmem (r / 2 ^ (4 - k), c / 2 ^ (4 - k))).mpr hfour, ?_⟩
    obtain rfl | rfl | rfl : k = 0 ∨ k = 3 ∨ k = 4 := by omega
    · exact .inl ⟨rfl, rfl, rfl⟩
    · exact .inr (.inl ⟨rfl, rfl, rfl⟩)
    · exact .inr (.inr ⟨rfl, by simp, by simp⟩)
  · rw [hm'.shape.rows] at hr
    rw [hm'.shape.cols] at hc
    rw [hm'.stale k r c hr hc]
    · exact hkept k (by omega) (.inr (by omega)) r hr c hc hout
    · rintro ⟨x, -, ⟨h₀, -⟩ | ⟨h₃, -⟩ | ⟨h₄, -⟩⟩ <;> omega

/-- An element of the patch, on a pixel that no element before it has reached. -/
theorem addElement_written {t : WeightMap W} {i : Nat} (hi : i < 4096) (ho : Of h w t)
    (hold : ∀ r c, Covered h w p r c → i = (r + 31 - p.row) * 64 + (c + 31 - p.col) →
      t.entry 0 r c = some (padded h w weight r c)) :
    ∃ t', addElement (rectOf h w p) p t i = some t' ∧ Written t t' (fun l r c =>
      l = 0 ∧ Covered h w p r c ∧ i = (r + 31 - p.row) * 64 + (c + 31 - p.col))
      (least (padded h w (added p weight))) := by
  by_cases hin : ((rectOf h w p).firstC ≤ (p.col : Int) - 31 + (i % 64 : Nat) ∧
      (p.col : Int) - 31 + (i % 64 : Nat) ≤ (rectOf h w p).lastC) ∧
      (rectOf h w p).firstR ≤ (p.row : Int) - 31 + (i / 64 : Nat) ∧
      (p.row : Int) - 31 + (i / 64 : Nat) ≤ (rectOf h w p).lastR
  · have hcovered : Covered h w p (p.row + i / 64 - 31) (p.col + i % 64 - 31) ∧
        31 ≤ p.row + i / 64 ∧ 31 ≤ p.col + i % 64 := by
      simp only [rectOf] at hin
      simp only [Covered]
      omega
    obtain ⟨hcovered, hr, hc⟩ := hcovered
    have hrow : ((p.row : Int) - 31 + (i / 64 : Nat)).toNat = p.row + i / 64 - 31 := by omega
    have hcol : ((p.col : Int) - 31 + (i % 64 : Nat)).toNat = p.col + i % 64 - 31 := by omega
    have hindex : i = (p.row + i / 64 - 31 + 31 - p.row) * 64 + (p.col + i % 64 - 31 + 31 - p.col) := by omega
    have hvalue : padded h w weight (p.row + i / 64 - 31) (p.col + i % 64 - 31) + p.k i =
        least (padded h w (added p weight)) 0 (p.row + i / 64 - 31) (p.col + i % 64 - 31) := by
      rw [least, padded_added, if_pos hcovered, ← hindex]
    have hle := Da3d.le_nextPow2 h
    have hle' := Da3d.le_nextPow2 w
    have hcore := hcovered.1
    obtain ⟨t', hput, ht'⟩ := written_put (m := t) (l := 0) (r := p.row + i / 64 - 31) (c := p.col + i % 64 - 31)
      (by rw [ho.rows, side]; omega) (by rw [ho.cols, side]; omega) hvalue
    refine ⟨t', ?_, ht'.congr fun l r c => ?_⟩
    · rw [addElement]
      simp only [if_pos hin, hrow, hcol, hold _ _ hcovered hindex, Option.bind_eq_bind, Option.bind_some]
      exact hput
    · constructor
      · rintro ⟨rfl, rfl, rfl⟩
        exact ⟨rfl, hcovered, hindex⟩
      · rintro ⟨rfl, ⟨-, hr', hc'⟩, hi'⟩
        exact ⟨rfl, by omega, by omega⟩
  · refine ⟨t, ?_, (Written.refl t _).congr fun l r c => ⟨False.elim, fun h' => hin ?_⟩⟩
    · rw [addElement]
      exact if_neg hin
    · obtain ⟨-, hcovered, hi'⟩ := h'
      simp only [Covered] at hcovered
      simp only [rectOf]
      omega

/-- The update of the plain path. -/
theorem plainUpdate_spec (hrow : p.row < h) (hcol : p.col < w) (hsquare : Square h w) (hh : h ≤ 2 ^ 31)
    (hw : w ≤ 2 ^ 31) (hs : Tree h w (padded h w weight) s.map) :
    ∃ m', plainUpdate p s = some ⟨m', s.prev⟩ ∧ Tree h w (padded h w (added p weight)) m' := by
  have hlevels : 1 ≤ s.map.levels := by
    rw [hs.of.levels, ← levels_eq]
    exact one_le_levels
  have hpatch : ∃ m', (List.range 4096).foldlM (addElement (rectOf h w p) p) s.map = some m' ∧
      Written s.map m' (fun l r c => ∃ i ∈ List.range 4096, l = 0 ∧ Covered h w p r c ∧
        i = (r + 31 - p.row) * 64 + (c + 31 - p.col)) (least (padded h w (added p weight))) := by
    refine written_foldlM fun done i rest hitems t ht => ?_
    have hi : i < 4096 := List.mem_range.mp (by rw [hitems]; simp)
    have hnew : i ∉ done := by
      have hnodup : (List.range 4096).Nodup := List.nodup_range
      rw [hitems] at hnodup
      exact fun hin => (List.nodup_append.mp hnodup).2.2 i hin i List.mem_cons_self rfl
    refine addElement_written hi (hs.of.shape ht.shape) fun r c hcovered hindex => ?_
    have hle := Da3d.le_nextPow2 h
    have hle' := Da3d.le_nextPow2 w
    have hcore := hcovered.1
    have hr : r < s.map.rows 0 := by
      rw [hs.of.rows, side]
      omega
    have hc : c < s.map.cols 0 := by
      rw [hs.of.cols, side]
      omega
    rw [ht.stale 0 r c hr hc]
    · exact hs.holds 0 (by omega) r hr c hc
    · rintro ⟨y, hy, -, -, hy'⟩
      exact hnew (hindex.trans hy'.symm ▸ hy)
  obtain ⟨m₁, helements, hm₁⟩ := hpatch
  have hall : ∀ {r c}, Covered h w p r c → (r + 31 - p.row) * 64 + (c + 31 - p.col) ∈ List.range 4096 := by
    rintro r c ⟨-, hr, hc⟩
    rw [List.mem_range]
    omega
  have hrisen : Risen h w (padded h w weight) (padded h w (added p weight)) 1 m₁ := by
    refine ⟨hs.of.shape hm₁.shape, fun k hk => hm₁.holds (fun r c _ => rfl) fun r hr c hc hout => ?_,
      fun k hk hk' r hr c hc => ?_⟩
    · obtain rfl : k = 0 := by omega
      rw [hs.holds 0 (by omega) r hr c hc, least, least]
      exact congrArg some (padded_of_not_covered fun hcovered => hout ⟨_, hall hcovered, rfl, hcovered, rfl⟩)
    · rw [hm₁.shape.rows] at hr
      rw [hm₁.shape.cols] at hc
      rw [hm₁.shape.levels] at hk'
      rw [hm₁.stale k r c hr hc (by rintro ⟨i, -, rfl, -⟩; omega)]
      exact hs.holds k hk' r hr c hc
  have hrefresh : ∃ m', refresh 1 (rectOf h w p) m₁ = some m' ∧ Tree h w (padded h w (added p weight)) m' := by
    obtain ⟨hh₂, hw₂⟩ | ⟨rfl, rfl⟩ := hsquare
    · exact refresh_tree (rectOf_placed hrow hcol) hh₂ hh hw₂ hw (leaf_of_not_over hrow hcol) hrisen
        (by rw [hm₁.shape.levels]; exact hlevels)
    · have hone : m₁.levels = 1 := hrisen.of.levels.trans Da3d.levelCount_one
      refine ⟨m₁, ?_, hrisen.of, fun l hl => hrisen.below l (hone ▸ hl)⟩
      rw [refresh, hone]
      rfl
  obtain ⟨m', hlevels', hm'⟩ := hrefresh
  refine ⟨m', ?_, hm'⟩
  rw [plainUpdate, hs.of.height, hs.of.width]
  simp only [helements, hlevels', Option.bind_eq_bind, Option.bind_some]

end Updates

/-! ## Runs -/

section Runs

open NssFactory.Da3d (padded added weights Of Holds Tree Square Indexed)
open MinTree (least descend)

variable [OrderTop W] [AddZeroClass W] {h w : Nat} {p : Patch W} {weight : Nat → Nat → W} {s : Pyramid W}
  {order : Nat → List Nat}

/-- The cores of the fast path. -/
def Fast (h w : Nat) : Prop := 16 ≤ h ∧ 16 ≤ w

instance (h w : Nat) : Decidable (Fast h w) := inferInstanceAs (Decidable (_ ∧ _))

/-- A pyramid before a selection: on the plain path every level holds its minima. -/
structure Ready (h w : Nat) (leaf : Nat → Nat → W) (s : Pyramid W) : Prop where
  of : Of h w s.map
  fast : Fast h w → s.prev.Placed h w ∧ Waiting h w leaf s.prev (kSharedLevel + 2) s.map
  plain : ¬Fast h w → Tree h w leaf s.map

/-- And after it. -/
structure Selected (h w : Nat) (leaf : Nat → Nat → W) (s : Pyramid W) : Prop where
  of : Of h w s.map
  fast : Fast h w → ∀ k < s.map.levels, k = 0 ∨ kSharedLevel ≤ k → Holds leaf s.map k
  plain : ¬Fast h w → Tree h w leaf s.map

omit [LinearOrder W] [OrderTop W] [AddZeroClass W] in
theorem fastPyramid_iff (ho : Of h w s.map) : fastPyramid s = true ↔ Fast h w := by
  rw [fastPyramid, ho.height, ho.width, decide_eq_true_eq, Fast]

omit [OrderTop W] [AddZeroClass W] in
theorem Ready.pixels {leaf : Nat → Nat → W} (hs : Ready h w leaf s) : Holds leaf s.map 0 := by
  have hlevels : 0 < s.map.levels := by
    rw [hs.of.levels, ← levels_eq]
    exact one_le_levels
  by_cases hfast : Fast h w
  · exact (hs.fast hfast).2.current 0 (by decide) (.inl rfl) hlevels
  · exact (hs.plain hfast).holds 0 hlevels

section Core

variable (hsquare : Square h w) (hh : h ≤ 2 ^ 31) (hw : w ≤ 2 ^ 31)

include hsquare hh hw

omit [AddZeroClass W] in
/-- Both paths choose what a plain min pyramid does. -/
theorem select_spec (threshold : W) (hs : Ready h w (padded h w weight) s) :
    ∃ s', select threshold s = some (choiceOf threshold h w (padded h w weight), s') ∧
      Selected h w (padded h w weight) s' := by
  by_cases hfast : Fast h w
  · obtain ⟨hq, hwaiting⟩ := hs.fast hfast
    obtain ⟨m', hselect, ho, hholds⟩ := fastSelect_spec threshold hfast.1 hh hfast.2 hw hq hwaiting
    refine ⟨⟨m', s.prev⟩, ?_, ho, fun _ => hholds, fun hplain => absurd hfast hplain⟩
    rw [select, if_pos ((fastPyramid_iff hs.of).mpr hfast), hselect]
  · refine ⟨s, ?_, hs.of, fun h' => absurd h' hfast, fun _ => hs.plain hfast⟩
    rw [select, if_neg (mt (fastPyramid_iff hs.of).mp hfast), plainSelect_spec threshold hsquare hh hw (hs.plain hfast)]

theorem update_spec (horder : ∀ n, (order n).Perm (List.range n)) (hrow : p.row < h) (hcol : p.col < w)
    (hs : Selected h w (padded h w weight) s) :
    ∃ s', update order p s = some s' ∧ Ready h w (padded h w (added p weight)) s' := by
  by_cases hfast : Fast h w
  · obtain ⟨m', hupdate, hm'⟩ := fastUpdate_spec horder hrow hcol hfast.1 hh hfast.2 hw hs.of (hs.fast hfast)
    refine ⟨⟨m', rectOf h w p⟩, ?_, hm'.of, fun _ => ⟨rectOf_placed hrow hcol, hm'⟩, fun hplain => absurd hfast hplain⟩
    rw [update, if_pos ((fastPyramid_iff hs.of).mpr hfast), hupdate]
  · obtain ⟨m', hupdate, hm'⟩ := plainUpdate_spec hrow hcol hsquare hh hw (hs.plain hfast)
    refine ⟨⟨m', s.prev⟩, ?_, hm'.of, fun h' => absurd h' hfast, fun _ => hm'⟩
    rw [update, if_neg (mt (fastPyramid_iff hs.of).mp hfast), hupdate]

theorem pass_spec (threshold : W) (horder : ∀ n, (order n).Perm (List.range n)) (hrow : p.row < h) (hcol : p.col < w)
    (hs : Ready h w (padded h w weight) s) :
    ∃ s', pass order threshold s p = some s' ∧ Ready h w (padded h w (added p weight)) s' := by
  obtain ⟨s₁, hselect, hs₁⟩ := select_spec hsquare hh hw threshold hs
  obtain ⟨s', hupdate, hs'⟩ := update_spec hsquare hh hw horder hrow hcol hs₁
  refine ⟨s', ?_, hs'⟩
  rw [pass, hselect]
  exact hupdate

end Core

/-- The kernel starts with the levels of `init`. -/
theorem ready_start (hsquare : Square h w) (hindexed : Indexed h w) :
    Ready h w (padded h w fun _ _ => (0 : W)) (start h w) := by
  obtain ⟨m, hinit, hm⟩ := @Da3d.tree_init W _ _ _ h w hsquare hindexed
  have hmap : (start h w).map = m := by
    rw [WeightMap.init] at hinit
    split_ifs at hinit
    rw [← Option.some.inj hinit]
    simp only [start, levels_eq, cursor_rr, cursor_cr]
  refine ⟨hmap ▸ hm.of, fun hfast => ⟨.empty, hmap ▸ hm.of, fun k _ _ hk => hmap ▸ hm.holds k (hmap ▸ hk),
    fun k _ hk r hr c hc _ => ?_⟩, fun _ => hmap ▸ hm⟩
  rw [hmap] at hk hr hc ⊢
  exact hm.holds k hk r hr c hc

/-- The pyramid after any patches, in the core, with the weights they have added. -/
theorem after_ready (threshold : W) (horder : ∀ n, (order n).Perm (List.range n)) (hsquare : Square h w)
    (hindexed : Indexed h w) {calls : List (Patch W)} (hcalls : ∀ p ∈ calls, p.row < h ∧ p.col < w) :
    ∃ s, after order threshold h w calls = some s ∧ Ready h w (padded h w (weights calls)) s := by
  have hone : 1 ≤ h ∧ 1 ≤ w := by
    rcases hsquare with h' | h' <;> omega
  obtain ⟨hh, hw⟩ := hindexed.le hone.1 hone.2
  have hrun : ∀ (calls : List (Patch W)) (weight : Nat → Nat → W) (s : Pyramid W),
      (∀ p ∈ calls, p.row < h ∧ p.col < w) → Ready h w (padded h w weight) s →
      ∃ s', calls.foldlM (pass order threshold) s = some s' ∧
        Ready h w (padded h w (calls.foldl (fun weight p => added p weight) weight)) s' := by
    intro calls
    induction calls with
    | nil => exact fun weight s _ hs => ⟨s, rfl, hs⟩
    | cons p calls ih =>
      intro weight s hcalls hs
      obtain ⟨hrow, hcol⟩ := hcalls p List.mem_cons_self
      obtain ⟨s₁, hpass, hs₁⟩ := pass_spec hsquare hh hw threshold horder hrow hcol hs
      obtain ⟨s', hrest, hs'⟩ := ih _ s₁ (fun q hq => hcalls q (List.mem_cons_of_mem _ hq)) hs₁
      refine ⟨s', ?_, hs'⟩
      rw [List.foldlM_cons, hpass]
      exact hrest
  exact hrun calls _ _ hcalls (ready_start hsquare hindexed)

/-- After any patches the kernel's selection is that of the weight map: it names the same pixel
and stops where the map's minimum has reached the threshold. -/
theorem select_after (threshold : W) (horder : ∀ n, (order n).Perm (List.range n)) (hsquare : Square h w)
    (hindexed : Indexed h w) (lanes : Nat) {calls : List (Patch W)} (hcalls : ∀ p ∈ calls, p.row < h ∧ p.col < w) :
    ∃ s s' m v q, after order threshold h w calls = some s ∧ Da3d.run lanes h w calls = some m ∧
      m.minimum = some v ∧ m.findMinimum = some q ∧ select threshold s = some (⟨decide (v < threshold), q⟩, s') := by
  have hone : 1 ≤ h ∧ 1 ≤ w := by
    rcases hsquare with h' | h' <;> omega
  obtain ⟨hh, hw⟩ := hindexed.le hone.1 hone.2
  obtain ⟨s, hafter, hs⟩ := after_ready threshold horder hsquare hindexed hcalls
  obtain ⟨s', hselect, -⟩ := select_spec hsquare hh hw threshold hs
  obtain ⟨m, hrun, hm⟩ := @Da3d.run_tree W _ _ _ h w lanes hsquare hindexed calls hcalls
  have hplain := plainSelect_spec (s := ⟨m, Rect.empty⟩) threshold hsquare hh hw hm
  rw [plainSelect, Option.bind_eq_bind, Option.bind_eq_some_iff] at hplain
  obtain ⟨v, hv, hplain⟩ := hplain
  rw [Option.bind_eq_bind, Option.bind_eq_some_iff] at hplain
  obtain ⟨q, hq, hplain⟩ := hplain
  have hchoice : (⟨decide (v < threshold), q⟩ : Choice) = choiceOf threshold h w (padded h w (weights calls)) :=
    congrArg Prod.fst (Option.some.inj hplain)
  exact ⟨s, s', m, v, q, hafter, hrun, hv, hq, hchoice ▸ hselect⟩

end Runs

end NssFactory.Cuda.Da3d
