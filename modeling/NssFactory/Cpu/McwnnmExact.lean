import NssFactory.Lib.Numerals
import NssFactory.Cpu.McwnnmAdmm
import NssFactory.Lib.Spectral

/-!
# The MCWNNM solver in exact arithmetic

With an exact eigendecomposition of the Gram matrix and an exact SVD, both shrinkages give the same
matrix: what each multiplies the group by is a function of the Gram matrix (`transform_eq`,
`IsExactSvd.mul_transform`), and a function of a symmetric matrix does not depend on how the matrix
was decomposed. The paths then run side by side (`gram8_eq_general`).

The filter takes the mean off a group first. It comes back exactly, from behind the room that the
SVD is left (`mcwnnmFilterGroup_restores`).
-/

namespace NssFactory.Cpu.McwnnmAdmm

open Finset
open SvdFinish (Svd)

section Exact

/-- The operations on the reals. -/
noncomputable def exact (N : Nat) : FloatOps ℝ N where
  zero := 0
  add := (· + ·)
  mul := (· * ·)
  mulAdd x y z := x * y + z
  reduceSum v := ∑ l, v l
  sub := (· - ·)
  div := (· / ·)
  sqrt := Real.sqrt
  abs x := |x|
  lt x y := decide (x < y)
  le x y := decide (x ≤ y)
  eq x y := decide (x = y)
  isFinite _ := true
  lit q := q
  zero_not_lt := by simp

variable {N : Nat}

theorem fused_exact (k : Nat) (a b : Nat → ℝ) :
    Gemm.fused (exact N).toOps k a b = ∑ t ∈ range k, a t * b t := by
  induction k with
  | zero => rfl
  | succ k ih =>
    rw [Gemm.fused, List.range_succ, List.foldl_append, sum_range_succ, ← ih]
    exact add_comm _ _

theorem scalar_exact (k : Nat) (a b : Nat → ℝ) :
    Gemm.scalar (exact N).toOps k a b = ∑ t ∈ range k, a t * b t := by
  induction k with
  | zero => rfl
  | succ k ih =>
    rw [Gemm.scalar, List.range_succ, List.foldl_append, sum_range_succ, ← ih]
    rfl

theorem entryNN_exact (m k i : Nat) (a b : Nat → ℝ) :
    Gemm.entryNN (exact N).toOps m k i a b = ∑ t ∈ range k, a t * b t := by
  unfold Gemm.entryNN
  split
  · exact fused_exact k a b
  · exact scalar_exact k a b

/-- The lanes of the complete vectors hold the sum of their elements. -/
theorem lanes_exact (count : Nat) (a b : Nat → ℝ) :
    ∑ l : Fin N, ((List.range count).map fun x => 0 + x * N).foldl
      (fun (acc : Fin N → ℝ) i l => a (i + l) * b (i + l) + acc l) (fun _ => 0) l =
      ∑ i ∈ range (count * N), a i * b i := by
  induction count with
  | zero => simp
  | succ count ih =>
    rw [List.range_succ, List.map_append, List.foldl_append, Nat.succ_mul, sum_range_add, ← ih]
    simp only [List.map_cons, List.map_nil, List.foldl_cons, List.foldl_nil]
    rw [Finset.sum_add_distrib, add_comm, Finset.sum_range]
    simp

theorem quadChain_exact (m : Nat) (a b : Nat → ℝ) :
    Gemm.quadChain (exact N).toOps m a b = ∑ i ∈ range m, a i * b i := by
  have htail : ∀ (first count : Nat) (x : ℝ), (List.range' first count).foldl (fun s i => s + a i * b i) x =
      x + ∑ i ∈ range count, a (first + i) * b (first + i) := by
    intro first count x
    induction count with
    | zero => simp
    | succ count ih => rw [List.range'_concat, List.foldl_append, ih, sum_range_succ, ← add_assoc, Nat.one_mul]; rfl
  have hstop : Tiles.stop N 0 m = m / N * N := by simp [Tiles.stop]
  have hle : m / N * N ≤ m := Nat.div_mul_le_self m N
  calc Gemm.quadChain (exact N).toOps m a b
      = ∑ i ∈ range (m / N * N), a i * b i +
          ∑ i ∈ range (m - m / N * N), a (m / N * N + i) * b (m / N * N + i) := by
        rw [← lanes_exact, ← htail, ← hstop]
        rfl
    _ = ∑ i ∈ range m, a i * b i := by
        rw [← sum_range_add, Nat.add_sub_cancel' hle]

theorem svShrinkFrom_exact (constant : ℝ) (S : Nat → ℝ) (k left : Nat) :
    svShrinkFrom (exact N) constant S k left = SvdFinish.svShrinkFrom Real.sqrt constant S k left := by
  induction left generalizing S k with
  | zero => rfl
  | succ left ih =>
    have hhalf : ∀ x : ℝ, x * ((1 / 2 : ℚ) : ℝ) = x / 2 := by
      intro x
      push_cast
      ring
    unfold svShrinkFrom SvdFinish.svShrinkFrom
    simp only [exact, decide_eq_true_eq, hhalf]
    split
    · exact ih _ _
    · rfl

theorem svShrinkFrom_spec (constant : ℝ) (S : Nat → ℝ) (k left : Nat) :
    k ≤ (SvdFinish.svShrinkFrom Real.sqrt constant S k left).2 ∧
      (SvdFinish.svShrinkFrom Real.sqrt constant S k left).2 ≤ k + left ∧
      ∀ i, (SvdFinish.svShrinkFrom Real.sqrt constant S k left).1 i =
        if k ≤ i ∧ i < (SvdFinish.svShrinkFrom Real.sqrt constant S k left).2 then
          (S i + √(S i * S i - constant)) / 2 else S i :=
  SvdFinish.svShrinkFrom_spec

/-- The loop ends at a value that is not shrunk, or at the last. -/
theorem svShrinkFrom_stop (constant : ℝ) (S : Nat → ℝ) (k left : Nat)
    (h : (SvdFinish.svShrinkFrom Real.sqrt constant S k left).2 < k + left) :
    ¬0 < S (SvdFinish.svShrinkFrom Real.sqrt constant S k left).2 *
      S (SvdFinish.svShrinkFrom Real.sqrt constant S k left).2 - constant := by
  induction left generalizing S k with
  | zero =>
    rw [SvdFinish.svShrinkFrom] at h
    omega
  | succ left ih =>
    unfold SvdFinish.svShrinkFrom at h ⊢
    dsimp only at h ⊢
    split
    · rename_i hpos
      rw [if_pos hpos] at h
      have hlow := (svShrinkFrom_spec constant (Function.update S k ((S k + √(S k * S k - constant)) / 2)) (k + 1)
        left).1
      have hrest := ih (Function.update S k ((S k + √(S k * S k - constant)) / 2)) (k + 1) (by omega)
      rwa [Function.update_of_ne (by omega)] at hrest
    · rename_i hpos
      exact hpos

/-- Of values in order, those above the threshold are shrunk. -/
theorem svShrink_exact (N : Nat) (S : Nat → ℝ) (n : Nat) (constant : ℝ) (hS : ∀ k < n, 0 ≤ S k)
    (horder : ∀ k, k + 1 < n → S (k + 1) ≤ S k) :
    (svShrink (exact N) S n constant 0).2 ≤ n ∧
      (∀ k < n, k < (svShrink (exact N) S n constant 0).2 ↔ constant < S k * S k) ∧
      ∀ k < (svShrink (exact N) S n constant 0).2,
        (svShrink (exact N) S n constant 0).1 k = (S k + √(S k * S k - constant)) / 2 := by
  unfold svShrink
  by_cases hn : n < 1
  · rw [if_pos hn]
    exact ⟨Nat.zero_le n, fun k hk => by omega, fun k hk => absurd hk (Nat.not_lt_zero k)⟩
  · rw [if_neg hn, Nat.zero_min, Nat.sub_zero, svShrinkFrom_exact]
    obtain ⟨-, hhigh, hvalues⟩ := svShrinkFrom_spec constant S 0 n
    refine ⟨by omega, fun k hk => ⟨fun hshrunk => ?_, fun habove => ?_⟩, fun k hk => ?_⟩
    · have := SvdFinish.svShrinkFrom_pos (Nat.zero_le k) hshrunk
      linarith
    · by_contra hle
      have hstop := svShrinkFrom_stop constant S 0 n (by omega)
      have hmono : ∀ d, (SvdFinish.svShrinkFrom Real.sqrt constant S 0 n).2 + d < n →
          S ((SvdFinish.svShrinkFrom Real.sqrt constant S 0 n).2 + d) ≤
            S (SvdFinish.svShrinkFrom Real.sqrt constant S 0 n).2 := by
        intro d
        induction d with
        | zero => exact fun _ => le_refl _
        | succ d ih => exact fun hd => (horder _ hd).trans (ih (by omega))
      have hle' := hmono (k - (SvdFinish.svShrinkFrom Real.sqrt constant S 0 n).2) (by omega)
      rw [Nat.add_sub_cancel' (by omega)] at hle'
      have hsquare := mul_self_le_mul_self (hS k hk) hle'
      linarith
    · rw [hvalues, if_pos ⟨Nat.zero_le k, hk⟩]

/-! ### Decompositions -/

/-- `G` has the rows of `vt` as eigenvectors and the values `s`. -/
structure Decomposes (n : Nat) (G : Mat ℝ) (s : Nat → ℝ) (vt : Mat ℝ) : Prop where
  product : ∀ i < n, ∀ j < n, G i j = ∑ k ∈ range n, vt k i * s k * vt k j
  rows : ∀ a < n, ∀ b < n, ∑ col ∈ range n, vt a col * vt b col = if a = b then 1 else 0

/-- An exact eigendecomposition, the largest value first. -/
structure IsEigendecomposition (n : Nat) (G : Mat ℝ) (e : Eigen ℝ) : Prop where
  decomposes : Decomposes n G e.s e.vt
  antitone : ∀ k, k + 1 < n → e.s (k + 1) ≤ e.s k

/-- An exact economy SVD; the left vector of a value that is zero is not used. -/
structure IsExactSvd (m n : Nat) (A : Mat ℝ) (v : Svd ℝ) : Prop where
  product : ∀ row < m, ∀ col < n, A row col = ∑ k ∈ range (min m n), v.U row k * v.S k * v.Vt k col
  columns : ∀ a < min m n, ∀ b < min m n, v.S a ≠ 0 → v.S b ≠ 0 →
    ∑ row ∈ range m, v.U row a * v.U row b = if a = b then 1 else 0
  rows : ∀ a < min m n, ∀ b < min m n, ∑ col ∈ range n, v.Vt a col * v.Vt b col = if a = b then 1 else 0
  nonneg : ∀ k < min m n, 0 ≤ v.S k
  antitone : ∀ k, k + 1 < min m n → v.S (k + 1) ≤ v.S k

variable {m n : Nat} {G A : Mat ℝ} {s t : Nat → ℝ} {vt wt : Mat ℝ}

/-- The rows as a matrix. -/
def square (n : Nat) (vt : Mat ℝ) : Matrix (Fin n) (Fin n) ℝ := fun k i => vt k i

theorem Decomposes.orthonormal (h : Decomposes n G s vt) : square n vt * (square n vt).transpose = 1 := by
  ext a b
  rw [Matrix.mul_apply, Matrix.one_apply]
  simp only [square, Matrix.transpose_apply, Fin.ext_iff]
  rw [← h.rows a a.isLt b b.isLt, Finset.sum_range]

theorem Decomposes.eq_apply (h : Decomposes n G s vt) :
    square n G = Spectral.apply (fun k : Fin n => s k) (square n vt) := by
  ext i j
  rw [Spectral.apply_entry, square, h.product i i.isLt j j.isLt, Finset.sum_range]
  rfl

/-- A function of the matrix is the same by both decompositions. -/
theorem Decomposes.congr (h : Decomposes n G s vt) (h' : Decomposes n G t wt) (f : ℝ → ℝ) {i j : Nat}
    (hi : i < n) (hj : j < n) :
    ∑ k ∈ range n, vt k i * f (s k) * vt k j = ∑ k ∈ range n, wt k i * f (t k) * wt k j := by
  have hsame := Spectral.apply_congr h.orthonormal h'.orthonormal (h.eq_apply.symm.trans h'.eq_apply) f
  have hentry := congrFun (congrFun hsame ⟨i, hi⟩) ⟨j, hj⟩
  rw [Spectral.apply_entry, Spectral.apply_entry] at hentry
  rw [Finset.sum_range, Finset.sum_range]
  exact hentry

/-- Both have as many values above a threshold. -/
theorem Decomposes.count_eq (h : Decomposes n G s vt) (h' : Decomposes n G t wt) {c : ℝ} {a b : Nat} (ha : a ≤ n)
    (hb : b ≤ n) (hs : ∀ k < n, k < a ↔ c < s k) (ht : ∀ k < n, k < b ↔ c < t k) : a = b := by
  have hcard := Spectral.card_congr h.orthonormal h'.orthonormal (h.eq_apply.symm.trans h'.eq_apply) fun x => c < x
  have hcount : ∀ (d : Nat) (u : Nat → ℝ), d ≤ n → (∀ k < n, k < d ↔ c < u k) →
      (Finset.univ.filter fun k : Fin n => c < u k).card = d := by
    intro d u hd hu
    have hfilter : (Finset.univ.filter fun k : Fin n => c < u k) =
        Finset.univ.filter fun k : Fin n => (k : Nat) < d :=
      Finset.filter_congr fun k _ => (hu k k.isLt).symm
    rw [hfilter, Fin.card_filter_val_lt, min_eq_right hd]
  rw [hcount a s ha hs, hcount b t hb ht] at hcard
  exact hcard

theorem gramMatrix_exact (T : Mat ℝ) (i j : Nat) :
    gramMatrix (exact N) m T i j = ∑ r ∈ range m, T r i * T r j := by
  rw [gramMatrix, quadChain_exact]
  rcases Nat.le_total i j with h | h
  · rw [min_eq_left h, max_eq_right h]
  · rw [min_eq_right h, max_eq_left h]
    exact sum_congr rfl fun r _ => mul_comm _ _

/-- The squares of the singular values decompose the Gram matrix. -/
theorem IsExactSvd.decomposes {v : Svd ℝ} (h : IsExactSvd m n A v) (hshape : n ≤ m) :
    Decomposes n (gramMatrix (exact N) m A) (fun k => v.S k * v.S k) v.Vt := by
  have hmin : min m n = n := Nat.min_eq_right hshape
  refine ⟨fun i hi j hj => ?_, fun a ha b hb => h.rows a (by omega) b (by omega)⟩
  -- two left vectors meet in their own value only
  have hmeet : ∀ a ∈ range n, ∀ b ∈ range n,
      ∑ r ∈ range m, v.U r a * v.S a * v.Vt a i * (v.U r b * v.S b * v.Vt b j) =
        if a = b then v.Vt a i * (v.S a * v.S a) * v.Vt a j else 0 := by
    intro a ha b hb
    rw [mem_range] at ha hb
    have hfactor : ∀ r ∈ range m, v.U r a * v.S a * v.Vt a i * (v.U r b * v.S b * v.Vt b j) =
        v.S a * v.S b * v.Vt a i * v.Vt b j * (v.U r a * v.U r b) := fun r _ => by ring
    rw [sum_congr rfl hfactor, ← mul_sum]
    by_cases ha0 : v.S a = 0
    · split
      · rw [ha0]; ring
      · rw [ha0]; ring
    · by_cases hb0 : v.S b = 0
      · split
        · rename_i hab
          exact absurd (hab ▸ hb0) ha0
        · rw [hb0]; ring
      · rw [h.columns a (by omega) b (by omega) ha0 hb0]
        split
        · rename_i hab
          subst hab
          ring
        · ring
  have hentry : ∀ r ∈ range m, A r i * A r j =
      ∑ a ∈ range n, ∑ b ∈ range n, v.U r a * v.S a * v.Vt a i * (v.U r b * v.S b * v.Vt b j) := by
    intro r hr
    rw [h.product r (mem_range.mp hr) i hi, h.product r (mem_range.mp hr) j hj, hmin, sum_mul_sum]
  rw [gramMatrix_exact, sum_congr rfl hentry, sum_comm]
  refine sum_congr rfl fun a ha => ?_
  rw [sum_comm, sum_congr rfl fun b hb => hmeet a ha b hb, sum_ite_eq, if_pos ha]

/-! ### The Gram path completes -/

theorem max_exact (x y : ℝ) : (exact N).max x y = max x y := by
  unfold FloatOps.max
  rcases lt_or_ge x y with h | h
  · rw [if_pos (show (exact N).lt x y = true from decide_eq_true h), max_eq_right h.le]
  · rw [if_neg (show ¬(exact N).lt x y = true by simpa [exact] using h), max_eq_left h]

/-- What the guards let pass. -/
theorem gramShrink8_some {jacobiSvd8 : Mat ℝ → Eigen ℝ} {c : ℝ} {kept : Nat} {Z : Mat ℝ}
    (h : gramShrink8 (exact N) jacobiSvd8 A m c 0 = some (kept, Z)) :
    let e := jacobiSvd8 (gramMatrix (exact N) m A)
    let shrunk := svShrink (exact N) (fun k => √(e.s k)) 8 c 0
    (∀ k < 8, 0 ≤ e.s k) ∧ (∀ k < 8, 2 / 100000 * (1 / 10 ^ 20) < |e.s k - c|) ∧ kept = shrunk.2 ∧
      Z = gemmNn (exact N) m 8 8 A fun a b =>
        transformEntry (exact N) e (fun k => if 1 / 10 ^ 20 < √(e.s k) then shrunk.1 k / √(e.s k) else 0) shrunk.2
          (min a b) (max a b) := by
  intro e shrunk
  unfold gramShrink8 at h
  dsimp only at h
  split at h
  · cases h
  · rename_i hvalues
    split at h
    · cases h
    · split at h
      · cases h
      · rename_i hband
        split at h
        · cases h
        · cases h
          refine ⟨fun k hk => ?_, fun k hk => ?_, rfl, ?_⟩
          · by_contra hneg
            refine hvalues (List.any_eq_true.mpr ⟨k, List.mem_range.mpr hk, ?_⟩)
            have : e.s k < 0 := not_le.mp hneg
            exact Bool.or_eq_true_iff.mpr (.inr (decide_eq_true this))
          · by_contra hnear
            refine hband (List.any_eq_true.mpr ⟨k, by simpa using hk, ?_⟩)
            have hfloor : ((1 / 10 ^ 20 : ℚ) : ℝ) ≤ max (max (e.s 0) c) ((1 / 10 ^ 20 : ℚ) : ℝ) := le_max_right _ _
            have hnear := not_lt.mp hnear
            rw [max_exact, max_exact]
            have hgoal : |e.s k - c| ≤ ((2 / 100000 : ℚ) : ℝ) * max (max (e.s 0) c) ((1 / 10 ^ 20 : ℚ) : ℝ) := by
              push_cast at hfloor ⊢
              linarith
            exact decide_eq_true hgoal
          · have hlit : (exact N).lit (1 / 10 ^ 20) = (1 / 10 ^ 20 : ℝ) := by
              change ((1 / 10 ^ 20 : ℚ) : ℝ) = _
              push_cast
              rfl
            rw [hlit]
            simp only [exact, decide_eq_true_eq]
            rfl

theorem transformEntry_exact (e : Eigen ℝ) (factor : Nat → ℝ) (kept a b : Nat) :
    transformEntry (exact N) e factor kept a b = ∑ k ∈ range kept, e.vt k a * factor k * e.vt k b := by
  induction kept with
  | zero => rfl
  | succ kept ih =>
    rw [transformEntry, List.range_succ, List.foldl_append, sum_range_succ, ← ih]
    rfl

attribute [local instance] Numerals.two

/-- What an eigenvalue of the Gram matrix is multiplied by. -/
noncomputable def factorOf (c x : ℝ) : ℝ := if c < x then (√x + √(x - c)) / 2 / √x else 0

variable {e : Eigen ℝ} {v : Svd ℝ} {c : ℝ}

/-- The matrix of the Gram path is a function of the Gram matrix. -/
theorem transform_eq (hvalues : ∀ k < 8, 0 ≤ e.s k) (hband : ∀ k < 8, 2 / 100000 * (1 / 10 ^ 20) < |e.s k - c|)
    (hc : 0 ≤ c) (horder : ∀ k, k + 1 < 8 → e.s (k + 1) ≤ e.s k) (a b : Nat) :
    let shrunk := svShrink (exact N) (fun k => √(e.s k)) 8 c 0
    (shrunk.2 ≤ 8 ∧ ∀ k < 8, k < shrunk.2 ↔ c < e.s k) ∧
    transformEntry (exact N) e (fun k => if 1 / 10 ^ 20 < √(e.s k) then shrunk.1 k / √(e.s k) else 0) shrunk.2
      (min a b) (max a b) = ∑ k ∈ range 8, e.vt k a * factorOf c (e.s k) * e.vt k b := by
  intro shrunk
  obtain ⟨hle, hkept, hvalue⟩ := svShrink_exact N (fun k => √(e.s k)) 8 c
    (fun k _ => Real.sqrt_nonneg _) fun k hk => Real.sqrt_le_sqrt (horder k hk)
  have hkept : ∀ k < 8, k < shrunk.2 ↔ c < e.s k := by
    intro k hk
    rw [hkept k hk, Real.mul_self_sqrt (hvalues k hk)]
  have hle : shrunk.2 ≤ 8 := hle
  refine ⟨⟨hle, hkept⟩, ?_⟩
  have hfactor : ∀ k < shrunk.2,
      (if 1 / 10 ^ 20 < √(e.s k) then shrunk.1 k / √(e.s k) else 0) = factorOf c (e.s k) := by
    intro k hk
    have habove := (hkept k (by omega)).mp hk
    have hfar := hband k (by omega)
    rw [abs_of_pos (by linarith)] at hfar
    have hroot : (1 / 10 ^ 20 : ℝ) < √(e.s k) := by
      refine Real.lt_sqrt_of_sq_lt ?_
      have : (1 / 10 ^ 20 : ℝ) ^ 2 < 2 / 100000 * (1 / 10 ^ 20) := by norm_num
      linarith
    rw [if_pos hroot, factorOf, if_pos habove, hvalue k hk, Real.mul_self_sqrt (hvalues k (by omega))]
  have hsymm : ∀ k, e.vt k (min a b) * factorOf c (e.s k) * e.vt k (max a b) =
      e.vt k a * factorOf c (e.s k) * e.vt k b := by
    intro k
    rcases Nat.le_total a b with h | h
    · rw [min_eq_left h, max_eq_right h]
    · rw [min_eq_right h, max_eq_left h]
      ring
  rw [transformEntry_exact]
  calc ∑ k ∈ range shrunk.2, e.vt k (min a b) *
          (if 1 / 10 ^ 20 < √(e.s k) then shrunk.1 k / √(e.s k) else 0) * e.vt k (max a b)
      = ∑ k ∈ range shrunk.2, e.vt k a * factorOf c (e.s k) * e.vt k b :=
        sum_congr rfl fun k hk => by rw [hfactor k (mem_range.mp hk), hsymm]
    _ = ∑ k ∈ range 8, e.vt k a * factorOf c (e.s k) * e.vt k b := by
        refine sum_subset (range_subset_range.mpr hle) fun k hk hkept' => ?_
        have hbelow : ¬c < e.s k := fun h =>
          hkept' (mem_range.mpr ((hkept k (mem_range.mp hk)).mpr h))
        rw [factorOf, if_neg hbelow]
        ring

/-- A singular value times the factor of its square is the shrunk value. -/
theorem mul_factorOf {x : ℝ} (hx : 0 ≤ x) (hc : 0 ≤ c) :
    x * factorOf c (x * x) = if c < x * x then (x + √(x * x - c)) / 2 else 0 := by
  unfold factorOf
  split
  · rename_i habove
    have hne : x ≠ 0 := by
      rintro rfl
      linarith
    rw [Real.sqrt_mul_self hx]
    field_simp
  · rw [mul_zero]

/-- Multiplying by that matrix shrinks the singular values. -/
theorem IsExactSvd.mul_transform (h : IsExactSvd m n A v) (hshape : n ≤ m) (hc : 0 ≤ c) {row col : Nat}
    (hrow : row < m) :
    ∑ l ∈ range n, A row l * ∑ k ∈ range n, v.Vt k l * factorOf c (v.S k * v.S k) * v.Vt k col =
      ∑ k ∈ range (svShrink (exact N) v.S n c 0).2,
        v.U row k * (v.Vt k col * (svShrink (exact N) v.S n c 0).1 k) := by
  have hmin : min m n = n := Nat.min_eq_right hshape
  obtain ⟨hle, hkept, hvalue⟩ := svShrink_exact N v.S n c
    (fun k hk => h.nonneg k (by omega)) fun k hk => h.antitone k (by omega)
  -- a row of the group times a right vector
  have hproject : ∀ k ∈ range n, ∑ l ∈ range n, A row l * v.Vt k l = v.U row k * v.S k := by
    intro k hk
    have hentry : ∀ l ∈ range n, A row l * v.Vt k l =
        ∑ i ∈ range n, v.U row i * v.S i * (v.Vt i l * v.Vt k l) := by
      intro l hl
      rw [h.product row hrow l (mem_range.mp hl), hmin, sum_mul]
      exact sum_congr rfl fun i _ => by ring
    rw [sum_congr rfl hentry, sum_comm]
    have hrows : ∀ i ∈ range n, ∑ l ∈ range n, v.U row i * v.S i * (v.Vt i l * v.Vt k l) =
        if i = k then v.U row k * v.S k else 0 := by
      intro i hi
      rw [mem_range] at hi hk
      rw [← mul_sum, h.rows i (by omega) k (by omega)]
      split
      · rename_i hik
        rw [hik, mul_one]
      · rw [mul_zero]
    rw [sum_congr rfl hrows, sum_ite_eq', if_pos hk]
  have hterm : ∀ k ∈ range n, ∑ l ∈ range n, A row l * (v.Vt k l * factorOf c (v.S k * v.S k) * v.Vt k col) =
      v.U row k * (v.Vt k col * if c < v.S k * v.S k then (v.S k + √(v.S k * v.S k - c)) / 2 else 0) := by
    intro k hk
    have hfactor : ∀ l ∈ range n, A row l * (v.Vt k l * factorOf c (v.S k * v.S k) * v.Vt k col) =
        A row l * v.Vt k l * (factorOf c (v.S k * v.S k) * v.Vt k col) := fun l _ => by ring
    have hk' := mem_range.mp hk
    rw [sum_congr rfl hfactor, ← sum_mul, hproject k hk, ← mul_factorOf (h.nonneg k (by omega)) hc]
    ring
  calc ∑ l ∈ range n, A row l * ∑ k ∈ range n, v.Vt k l * factorOf c (v.S k * v.S k) * v.Vt k col
      = ∑ k ∈ range n, v.U row k *
          (v.Vt k col * if c < v.S k * v.S k then (v.S k + √(v.S k * v.S k - c)) / 2 else 0) := by
        rw [← sum_congr rfl hterm, sum_comm]
        exact sum_congr rfl fun l _ => mul_sum _ _ _
    _ = ∑ k ∈ range (svShrink (exact N) v.S n c 0).2, v.U row k *
          (v.Vt k col * if c < v.S k * v.S k then (v.S k + √(v.S k * v.S k - c)) / 2 else 0) := by
        refine (sum_subset (range_subset_range.mpr hle) fun k hk hkept' => ?_).symm
        have hbelow : ¬c < v.S k * v.S k := fun habove =>
          hkept' (mem_range.mpr ((hkept k (mem_range.mp hk)).mpr habove))
        rw [if_neg hbelow, mul_zero, mul_zero]
    _ = ∑ k ∈ range (svShrink (exact N) v.S n c 0).2,
          v.U row k * (v.Vt k col * (svShrink (exact N) v.S n c 0).1 k) := by
        refine sum_congr rfl fun k hk => ?_
        have hk := mem_range.mp hk
        rw [if_pos ((hkept k (by omega)).mp hk), hvalue k hk]

/-- Where the Gram path shrinks, the SVD gives the same matrix and the same number of values. -/
theorem gramShrink8_eq {jacobiSvd8 : Mat ℝ → Eigen ℝ} {kept : Nat} {Z : Mat ℝ} (hshape : 8 ≤ m) (hc : 0 ≤ c)
    (heigen : IsEigendecomposition 8 (gramMatrix (exact N) m A) (jacobiSvd8 (gramMatrix (exact N) m A)))
    (hsvd : IsExactSvd m 8 A v) (h : gramShrink8 (exact N) jacobiSvd8 A m c 0 = some (kept, Z)) :
    kept = (svShrink (exact N) v.S 8 c 0).2 ∧
      Z = cells (exact N) m 8 fun row col => ∑ k ∈ range (svShrink (exact N) v.S 8 c 0).2,
        v.U row k * (v.Vt k col * (svShrink (exact N) v.S 8 c 0).1 k) := by
  obtain ⟨hvalues, hband, hkept, hZ⟩ := gramShrink8_some h
  have hboth := heigen.decomposes
  have hsquares := hsvd.decomposes (N := N) hshape
  obtain ⟨hle, hcount, -⟩ := svShrink_exact N v.S 8 c
    (fun k hk => hsvd.nonneg k (by omega)) fun k hk => hsvd.antitone k (by omega)
  obtain ⟨⟨hle', hcount'⟩, -⟩ := transform_eq (N := N) hvalues hband hc heigen.antitone 0 0
  refine ⟨?_, ?_⟩
  · rw [hkept]
    exact hboth.count_eq hsquares hle' hle hcount' hcount
  · rw [hZ]
    funext row col
    unfold gemmNn cells
    split
    · rename_i hin
      dsimp only
      rw [entryNN_exact, ← hsvd.mul_transform hshape hc hin.1]
      refine sum_congr rfl fun l hl => ?_
      rw [(transform_eq hvalues hband hc heigen.antitone l col).2,
        hboth.congr hsquares (factorOf c) (mem_range.mp hl) hin.2]
    · rfl

theorem gramShrinkage_follows (solvers : Solvers ℝ) {mem mem' : Memory ℝ} (hshape : 8 ≤ m) (hc : 0 ≤ c)
    (hTemp : mem.Temp = mem'.Temp)
    (heigen : IsEigendecomposition 8 (gramMatrix (exact N) m mem.Temp)
      (solvers.jacobiSvd8 (gramMatrix (exact N) m mem.Temp)))
    (hok : (solvers.svdEconomy m 8 mem.Temp).ok = true)
    (hsvd : IsExactSvd m 8 mem.Temp (solvers.svdEconomy m 8 mem.Temp).toSvd) :
    Follows (gramShrinkage (exact N) solvers m c mem) (svdShrinkage (exact N) solvers m 8 0 c mem') := by
  intro kept mem₁ hrun
  unfold gramShrinkage at hrun
  cases hshrunk : gramShrink8 (exact N) solvers.jacobiSvd8 mem.Temp m c 0 with
  | none =>
    rw [hshrunk] at hrun
    cases hrun
  | some r =>
    rw [hshrunk] at hrun
    cases hrun
    obtain ⟨hkept, hZ⟩ := gramShrink8_eq hshape hc heigen hsvd hshrunk
    unfold svdShrinkage
    dsimp only
    rw [← hTemp, if_pos hok, Nat.min_eq_right hshape, ← hkept]
    refine ⟨_, rfl, ?_⟩
    rw [hZ, ← hkept]
    unfold reconstruct
    split
    · rename_i hzero
      rw [hzero]
      rfl
    · unfold scaleVectors
      rw [if_neg (by omega)]
      dsimp only
      funext row col
      unfold gemmNn cells
      split
      · dsimp only
        rw [entryNN_exact]
        refine sum_congr rfl fun k hk => ?_
        rw [if_pos (mem_range.mp hk)]
        rfl
      · rfl

/-! ### The filter of a group -/

/-- Whether the mean has room behind the work of the solver. -/
def Call.meanInWork (c : Call ℝ) : Bool :=
  c.workFloats.any fun floats => (admmWorkFloats c.m.toNat c.n.toNat : Int) + c.m ≤ floats

def storeMean (first m : Nat) (mean scratch : Nat → ℝ) : Nat → ℝ :=
  fun i => if first ≤ i ∧ i < first + m then mean (i - first) else scratch i

noncomputable def Call.anySigma (c : Call ℝ) : Bool :=
  c.sigma.any fun sigma => (List.range c.nch.toNat).any fun channel => (exact 1).positive (sigma channel)

/-- The group without its mean, which is stored where it has room. -/
noncomputable def center (c : Call ℝ) (mem : Memory ℝ) : Memory ℝ :=
  let centered := SvdFinish.groupCenterSub c.m c.n c.lda mem.Y
  { mem with
    Y := centered.1
    scratch := if c.meanInWork then storeMean (svdFloats c.m.toNat c.n.toNat) c.m.toNat centered.2 mem.scratch
      else mem.scratch }

/-- The mean back on the group; `mean` is the local array. -/
noncomputable def uncenter (c : Call ℝ) (mean : Nat → ℝ) (mem : Memory ℝ) : Memory ℝ :=
  let mean := if c.meanInWork then fun row => mem.scratch (svdFloats c.m.toNat c.n.toNat + row) else mean
  { mem with Y := SvdFinish.groupCenterAdd c.m c.n c.lda mem.Y mean }

/-- The adaptive weight, `none` for -1, and the memory. -/
noncomputable def mcwnnmFilterGroup (N : Nat) (solvers : Solvers ℝ) (c : Call ℝ) (residual adaptive : Int)
    (mem : Memory ℝ) : Option ℝ × Memory ℝ :=
  if c.m < 1 ∨ c.n < 1 ∨ c.lda < c.m ∨ kSvdMaxM < c.m ∨ kSvdMaxN < c.n then (none, mem)
  else
    let r := mcwnnmAdmm (exact N) solvers { c with svStartK := if residual ≠ 0 then 0 else 1 }
      (if residual ≠ 0 then center c mem else mem)
    let after := if residual ≠ 0 then uncenter c (SvdFinish.groupCenterSub c.m c.n c.lda mem.Y).2 r.2 else r.2
    (r.1.map fun (kept : Nat) => if adaptive ≠ 0 ∧ c.anySigma ∧ 0 < kept then 1 / (kept : ℝ) else 1, after)

theorem groupCenterAdd_congr {m n lda : Int} {g : Mat ℝ} {mean mean' : Nat → ℝ}
    (h : ∀ row < m.toNat, mean row = mean' row) :
    SvdFinish.groupCenterAdd m n lda g mean = SvdFinish.groupCenterAdd m n lda g mean' := by
  unfold SvdFinish.groupCenterAdd
  split
  · rfl
  · funext row col
    unfold SvdFinish.assign
    split
    · rename_i hin
      dsimp only
      rw [h row hin.1]
    · rfl

/-- The mean is where it was when it is added back. -/
theorem uncenter_center (c : Call ℝ) (mem mem' : Memory ℝ) (hY : mem'.Y = (center c mem).Y)
    (hscratch : ∀ i, svdFloats c.m.toNat c.n.toNat ≤ i → mem'.scratch i = (center c mem).scratch i) :
    (uncenter c (SvdFinish.groupCenterSub c.m c.n c.lda mem.Y).2 mem').Y = mem.Y := by
  have hmean : ∀ row < c.m.toNat,
      (if c.meanInWork then fun row => mem'.scratch (svdFloats c.m.toNat c.n.toNat + row)
        else (SvdFinish.groupCenterSub c.m c.n c.lda mem.Y).2) row =
        (SvdFinish.groupCenterSub c.m c.n c.lda mem.Y).2 row := by
    intro row hrow
    split
    · rename_i hin
      dsimp only
      rw [hscratch _ (Nat.le_add_right _ _), center]
      dsimp only
      rw [if_pos hin, storeMean, if_pos (by omega), Nat.add_sub_cancel_left]
    · rfl
  rw [uncenter]
  dsimp only
  rw [groupCenterAdd_congr hmean, hY]
  exact SvdFinish.groupCenterAdd_groupCenterSub c.m c.n c.lda mem.Y

/-- A group that is not filtered has its mean back. -/
theorem mcwnnmFilterGroup_restores (solvers : Solvers ℝ) (call : Call ℝ) (residual adaptive : Int) (mem : Memory ℝ)
    (h : (mcwnnmFilterGroup N solvers call residual adaptive mem).1 = none) :
    (mcwnnmFilterGroup N solvers call residual adaptive mem).2.Y = mem.Y := by
  unfold mcwnnmFilterGroup at h ⊢
  split
  · rfl
  · rename_i hshape
    rw [if_neg hshape] at h
    dsimp only at h ⊢
    rw [Option.map_eq_none_iff] at h
    by_cases hresidual : residual ≠ 0
    · rw [if_pos hresidual] at h ⊢
      simp only [if_pos hresidual] at h ⊢
      obtain ⟨hY, hscratch⟩ :=
        mcwnnmAdmm_untouched (o := exact N) solvers { call with svStartK := 0 } (center call mem)
      exact uncenter_center call mem _ (hY h) hscratch
    · simp only [if_neg hresidual] at h ⊢
      exact (mcwnnmAdmm_untouched (o := exact N) solvers { call with svStartK := 1 } mem).1 h

/-! ## The paths agree -/

/-- What the solvers make of the input `T` of a shrinkage is exact. -/
structure ExactOn (N : Nat) (solvers : Solvers ℝ) (m : Nat) (T : Mat ℝ) : Prop where
  eigen : IsEigendecomposition 8 (gramMatrix (exact N) m T) (solvers.jacobiSvd8 (gramMatrix (exact N) m T))
  ok : (solvers.svdEconomy m 8 T).ok = true
  svd : IsExactSvd m 8 T (solvers.svdEconomy m 8 T).toSvd

theorem positive_exact {x : ℝ} : (exact N).positive x = true ↔ 0 < x := by
  simp [FloatOps.positive, exact]

theorem gram8_eq_general (solvers : Solvers ℝ) {a : Args ℝ} (hn : a.n = 8) (hshape : 8 ≤ a.m) (hrho : 0 < a.rho)
    {mem mem₁ : Memory ℝ} {kept : Nat}
    (hexact : ∀ it < a.admmIter, ∀ s, iterations (exact N) (gramShrinkage (exact N) solvers a.m) a
      (a.constant (exact N) (channelWeightDiag (exact N) mem.w2 a.m a.nch a.sigma).2) it (start (exact N) a mem) =
        .ok s → ExactOn N solvers a.m (enter (exact N) a it s).Temp)
    (hrun : mcwnnmAdmmGram8 (exact N) solvers a mem = .ok (kept, mem₁)) :
    ∃ mem₂, general (exact N) solvers 0 a mem = .ok (kept, mem₂) ∧ mem₁.Y = mem₂.Y := by
  have ha : { a with n := 8 } = a := by
    cases a
    cases hn
    rfl
  have hrho' : (exact N).positive a.rho = true := positive_exact.mpr hrho
  unfold mcwnnmAdmmGram8 at hrun
  rw [ha] at hrun
  unfold general
  rw [hn, Nat.min_eq_right hshape]
  refine admm_follows (gramShrinkage_keeps solvers a.m (svdTakes a.m 8).sum) (svdShrinkage_keeps solvers a.m 8 0)
    rfl hrho' (fun C hC it hit s hs entered hgiven => ?_) hrun
  subst hC
  obtain ⟨s', hs', -, hpositive⟩ := iterations_rho hs (Nat.le_refl it)
  rw [hs] at hs'
  cases hs'
  have hpositive : 0 < s.rho := positive_exact.mp (hpositive hrho')
  obtain ⟨heigen, hok, hsvd⟩ := hexact it hit s hs
  refine gramShrinkage_follows solvers hshape ?_ hgiven.Temp heigen hok hsvd
  have hconstant : ∀ x : ℝ, 0 ≤ a.constant (exact N) x := by
    intro x
    have hroot := Real.sqrt_nonneg ((2 : ℚ) * ((a.n : ℚ) : ℝ))
    have hform : a.constant (exact N) x = ((8 : ℚ) : ℝ) * √((2 : ℚ) * ((a.n : ℚ) : ℝ)) * x * x := rfl
    rw [hform, mul_assoc _ x x]
    push_cast at hroot ⊢
    have := mul_self_nonneg x
    positivity
  refine mul_nonneg (hconstant _) (div_nonneg ?_ hpositive.le)
  change (0 : ℝ) ≤ ((2 : ℚ) : ℝ)
  norm_num

theorem Call.rho_positive {F : Type} {o : FloatOps F N} {call : Call F} (h : call.refused o = false) :
    o.positive call.rho = true := by
  simp only [Call.refused, Bool.or_eq_false_iff, Bool.not_eq_false'] at h
  obtain ⟨⟨⟨⟨⟨-, hpos⟩, hfinite⟩, -⟩, -⟩, -⟩ := h
  exact Bool.and_eq_true_iff.mpr ⟨hpos, hfinite⟩

theorem Call.tall_iff {F : Type} {call : Call F} :
    call.tall = true ↔ call.n = 8 ∧ 192 ≤ call.m ∧ call.svStartK = 0 := by
  simp [Call.tall]

theorem mcwnnmAdmm_fallback {F : Type} {o : FloatOps F N} (solvers : Solvers F) {c : Call F} {sigma : Nat → F}
    (hsigma : c.sigma = some sigma) (hchecked : c.refused o = false) (htall : c.tall = true) {mem left : Memory F}
    (hgram : mcwnnmAdmmGram8 o solvers (c.args sigma) mem = .error left) :
    (mcwnnmAdmm o solvers c mem).1 = (returned (general o solvers c.startK (c.args sigma) mem)).1 ∧
      (mcwnnmAdmm o solvers c mem).2.Y = (returned (general o solvers c.startK (c.args sigma) mem)).2.Y := by
  have hrho : o.positive (c.args sigma).rho = true := Call.rho_positive hchecked
  have hY : left.Y = mem.Y := admm_error_Y (gramShrinkage_keeps solvers (c.args sigma).m 0) hgram
  have hrun : mcwnnmAdmm o solvers c mem = returned (general o solvers c.startK (c.args sigma) left) := by
    unfold mcwnnmAdmm
    rw [hsigma]
    dsimp only
    rw [if_neg (by rw [hchecked]; decide), if_pos htall, hgram]
  rw [hrun]
  exact general_same solvers c.startK hY hrho

/-- In any arithmetic, whatever the solvers return: -1 leaves the group, which no iteration writes;
a run that completes has used the penalties in turn; and where the Gram path gives up, the result is
that of the general path. In exact arithmetic a group that is refused has its mean back, and where
the Gram path completes, the general path ends with the same group and the same number of values. -/
theorem mcwnnmAdmm_paths_agree :
    (∀ {F : Type} {N : Nat} (o : FloatOps F N) (solvers : Solvers F) (call : Call F) (mem : Memory F),
      ((mcwnnmAdmm o solvers call mem).1 = none → (mcwnnmAdmm o solvers call mem).2.Y = mem.Y) ∧
      ∀ sigma, call.sigma = some sigma → call.refused o = false →
        (∀ shrink, shrink = gramShrinkage o solvers (call.args sigma).m ∨
            shrink = svdShrinkage o solvers (call.args sigma).m (call.args sigma).n call.startK →
          (∀ C count, Loops.Ends (fun left => left.Y = mem.Y) (fun s => s.mem.Y = mem.Y)
            (iterations o shrink (call.args sigma) C count (start o (call.args sigma) mem))) ∧
          ∀ full kept mem', admm o shrink full (call.args sigma) mem = .ok (kept, mem') →
            Completed o shrink full (call.args sigma) mem kept mem') ∧
        (call.tall = true → ∀ left, mcwnnmAdmmGram8 o solvers (call.args sigma) mem = .error left →
          (mcwnnmAdmm o solvers call mem).1 =
              (returned (general o solvers call.startK (call.args sigma) mem)).1 ∧
            (mcwnnmAdmm o solvers call mem).2.Y =
              (returned (general o solvers call.startK (call.args sigma) mem)).2.Y)) ∧
    (∀ (N : Nat) (solvers : Solvers ℝ) (call : Call ℝ) (residual adaptive : Int) (mem : Memory ℝ),
      (mcwnnmFilterGroup N solvers call residual adaptive mem).1 = none →
        (mcwnnmFilterGroup N solvers call residual adaptive mem).2.Y = mem.Y) ∧
    ∀ (N : Nat) (solvers : Solvers ℝ) (call : Call ℝ) (sigma : Nat → ℝ) (mem : Memory ℝ),
      call.refused (exact N) = false → call.tall = true →
      (∀ it < call.admmIter.toNat, ∀ s, iterations (exact N) (gramShrinkage (exact N) solvers call.m.toNat)
        (call.args sigma) ((call.args sigma).constant (exact N)
          (channelWeightDiag (exact N) mem.w2 call.m.toNat call.nch.toNat sigma).2) it
        (start (exact N) (call.args sigma) mem) = .ok s →
          ExactOn N solvers call.m.toNat (enter (exact N) (call.args sigma) it s).Temp) →
      ∀ kept mem₁, mcwnnmAdmmGram8 (exact N) solvers (call.args sigma) mem = .ok (kept, mem₁) →
        ∃ mem₂, general (exact N) solvers call.startK (call.args sigma) mem = .ok (kept, mem₂) ∧
          mem₁.Y = mem₂.Y := by
  refine ⟨fun o solvers call mem =>
      ⟨(mcwnnmAdmm_untouched solvers call mem).1, fun sigma hsigma hchecked => ⟨?_, ?_⟩⟩,
    fun N solvers call residual adaptive mem h => mcwnnmFilterGroup_restores solvers call residual adaptive mem h,
    fun N solvers call sigma mem hchecked htall hexact kept mem₁ hrun => ?_⟩
  · rintro shrink hshrink
    refine ⟨fun C count => ?_, fun full kept mem' hrun => admm_completed (Call.rho_positive hchecked) hrun⟩
    obtain ⟨first, hkeeps⟩ : ∃ first, Keeps first shrink := by
      rcases hshrink with rfl | rfl
      · exact ⟨0, gramShrinkage_keeps solvers _ 0⟩
      · exact ⟨_, svdShrinkage_keeps solvers _ _ _⟩
    have hends := iterations_untouched (o := o) (a := call.args sigma) (C := C) hkeeps count
      (start o (call.args sigma) mem)
    cases hrun : iterations o shrink (call.args sigma) C count (start o (call.args sigma) mem) with
    | error left =>
      rw [hrun] at hends
      exact hends.1
    | ok s =>
      rw [hrun] at hends
      exact hends.1
  · exact fun htall left hgram => mcwnnmAdmm_fallback solvers hsigma hchecked htall hgram
  · obtain ⟨hn, hm, hstart⟩ := Call.tall_iff.mp htall
    have hstartK : call.startK = 0 := by
      rw [Call.startK, hstart]
      exact Nat.zero_min _
    rw [hstartK]
    refine gram8_eq_general solvers ?_ ?_ (positive_exact.mp (Call.rho_positive hchecked)) hexact hrun
    · change call.n.toNat = 8
      omega
    · change 8 ≤ call.m.toNat
      omega

/-- Solvers that are exact on the zero matrix. -/
def zeroSolvers : Solvers ℝ where
  jacobiSvd8 _ := ⟨fun _ _ => 0, fun _ => 0, fun a b => if a = b then 1 else 0, fun _ _ => 0⟩
  svdEconomy _ _ _ := ⟨⟨fun _ _ => 0, fun _ => 0, fun a b => if a = b then 1 else 0⟩, true, fun _ => 0⟩

/-- Three channels of eight by eight, one iteration. -/
def oneIteration : Call ℝ := ⟨192, 8, 192, 3, some fun _ => 1, 1, 3, 1, 0, some 20000⟩

def zeroMemory : Memory ℝ :=
  ⟨fun _ _ => 0, fun _ _ => 0, fun _ _ => 0, fun _ _ => 0, fun _ _ => 0, fun _ _ => 0, fun _ => 0, fun _ _ => 0,
    fun _ => 0, fun _ => 0⟩

theorem smallest_one : smallest (exact N) 3 (fun _ => 1) = 1 := by
  simp [smallest, List.range_succ, exact, FloatOps.positive, FloatOps.min]

theorem oneIteration_weights : (channelWeightDiag (exact 1) zeroMemory.w2 192 3 fun _ => 1).2 = 1 := by
  unfold channelWeightDiag
  rw [if_neg (by decide), smallest_one]
  dsimp only
  rw [if_pos (by simp [exact])]

/-- A zero group gives a zero matrix to shrink. -/
theorem enter_zero {a : Args ℝ} {s : State ℝ} (hY : s.mem.Y = fun _ _ => 0) (hZ : s.mem.Z = fun _ _ => 0)
    (hA : s.mem.A = fun _ _ => 0) (hrho : 0 < s.rho) : (enter (exact N) a 0 s).Temp = fun _ _ => 0 := by
  have hX : (cells (exact N) a.m a.n fun i _ => weighted (exact N) a.m s.rho (s.mem.w2 i) 0 0 0 i) =
      fun _ _ => 0 := by
    funext i j
    unfold cells
    split
    · simp [weighted, exact]
    · rfl
  unfold enter tempXp admmWeightedX
  rw [if_pos rfl, if_pos (positive_exact.mpr hrho)]
  dsimp only
  rw [hY, hZ, hA, hX]
  funext i j
  simp [cells, exact]

theorem gramShrink8_zero {c : ℝ} (hc : 1 ≤ c) :
    ∃ r, gramShrink8 (exact N) zeroSolvers.jacobiSvd8 A m c 0 = some r := by
  have hmax : max (max 0 c) ((1 / 10 ^ 20 : ℚ) : ℝ) ≤ c := by
    refine max_le (max_le (by linarith) le_rfl) ?_
    push_cast
    have : (1 / 10 ^ 20 : ℝ) ≤ 1 := by norm_num
    linarith
  unfold gramShrink8
  dsimp only
  rw [if_neg (by simp [zeroSolvers, exact]), if_neg (by simp [gramSpectrumIsPsd8, zeroSolvers, exact]), if_neg,
    if_neg (by simp [exact])]
  · exact ⟨_, rfl⟩
  · rw [Bool.not_eq_true, List.any_eq_false]
    intro k _ hnear
    rw [max_exact, max_exact] at hnear
    have hnear : |0 - c| ≤ ((2 / 100000 : ℚ) : ℝ) * max (max 0 c) ((1 / 10 ^ 20 : ℚ) : ℝ) := of_decide_eq_true hnear
    rw [zero_sub, abs_neg, abs_of_pos (by linarith)] at hnear
    push_cast at hnear hmax
    linarith

theorem zeroSolvers_exact (m : Nat) : ExactOn 1 zeroSolvers m fun _ _ => 0 := by
  have hgram : gramMatrix (exact 1) m (fun _ _ => 0) = fun _ _ => 0 := by
    funext i j
    rw [gramMatrix_exact]
    simp
  have hidentity : ∀ a < 8, ∀ b < 8, ∑ col ∈ range 8, (if a = col then (1 : ℝ) else 0) * (if b = col then 1 else 0) =
      if a = b then 1 else 0 := by
    intro a ha b _
    rw [sum_eq_single_of_mem a (mem_range.mpr ha) fun col _ hcol => by rw [if_neg (Ne.symm hcol), zero_mul]]
    simp [eq_comm]
  refine ⟨⟨⟨fun i _ j _ => ?_, hidentity⟩, fun k _ => le_rfl⟩, rfl, ?_⟩
  · rw [hgram]
    simp [zeroSolvers]
  · refine ⟨fun row _ col _ => by simp [zeroSolvers], fun a _ b _ h => absurd rfl h, fun a ha b hb => ?_,
      fun k _ => le_rfl, fun k _ => le_rfl⟩
    exact hidentity a (by omega) b (by omega)

theorem oneIteration_refused : oneIteration.refused (exact 1) = false := by
  have hshape : decide (oneIteration.m < 1 ∨ oneIteration.n < 1 ∨ oneIteration.lda < oneIteration.m ∨
      oneIteration.nch < 1 ∨ oneIteration.m % oneIteration.nch ≠ 0 ∨ kSvdMaxM < oneIteration.m ∨
      kSvdMaxN < oneIteration.n ∨ oneIteration.admmIter < 1) = false := by decide
  unfold Call.refused
  rw [hshape]
  simp [oneIteration, exact, FloatOps.one, admmWorkFloats, svdFloats]

theorem cells_zero (m n : Nat) : (cells (exact N) m n fun _ _ => (0 : ℝ)) = fun _ _ => 0 := by
  funext i j
  exact ite_self _

/-- The Gram path completes on a zero group. -/
theorem oneIteration_completes :
    ∃ r, mcwnnmAdmmGram8 (exact 1) zeroSolvers (oneIteration.args fun _ => 1) zeroMemory = .ok r := by
  have hconstant : 1 ≤ (exact 1).mul ((oneIteration.args fun _ => 1).constant (exact 1) 1)
      ((exact 1).div ((exact 1).lit 2) 3) := by
    have hroot : (1 : ℝ) ≤ √(2 * 8) := Real.one_le_sqrt.mpr (by norm_num)
    have hform : (exact 1).mul ((oneIteration.args fun _ => 1).constant (exact 1) 1)
        ((exact 1).div ((exact 1).lit 2) 3) = 8 * √(2 * 8) * 1 * 1 * (2 / 3) := by
      simp [exact, Args.constant, oneIteration, Call.args]
    have hlarge : ∀ x : ℝ, 1 ≤ x → 1 ≤ 8 * x * 1 * 1 * (2 / 3) := by
      intro x hx
      linarith
    rw [hform]
    exact hlarge _ hroot
  obtain ⟨⟨kept, Z⟩, hshrunk⟩ := gramShrink8_zero (N := 1) (m := 192) (A := fun _ _ => 0) hconstant
  have hround : ∀ s : State ℝ, s.rho = 3 →
      (enter (exact 1) (oneIteration.args fun _ => 1) 0 s).Temp = (fun _ _ => 0) →
      ∃ s', iterate (exact 1) (gramShrinkage (exact 1) zeroSolvers 192) (oneIteration.args fun _ => 1)
        ((oneIteration.args fun _ => 1).constant (exact 1) 1) s 0 = .ok s' := by
    intro s hrho hTemp
    have hnext : (exact 1).positive ((oneIteration.args fun _ => 1).nextRho (exact 1) 3) = true := by
      refine positive_exact.mpr ?_
      unfold Args.nextRho FloatOps.min
      split
      · simp [exact, oneIteration, Call.args]
      · simp [exact]
    unfold iterate gramShrinkage
    rw [hTemp, hrho, hshrunk, Loops.ok_bind, if_pos hnext]
    exact ⟨_, rfl⟩
  obtain ⟨s', hs'⟩ := hround (start (exact 1) (oneIteration.args fun _ => 1) zeroMemory) rfl
    (enter_zero rfl (cells_zero 192 8) (cells_zero 192 8) (show (0 : ℝ) < 3 by norm_num))
  have hrun : iterations (exact 1) (gramShrinkage (exact 1) zeroSolvers 192) (oneIteration.args fun _ => 1)
      ((oneIteration.args fun _ => 1).constant (exact 1) 1) 1
      (start (exact 1) (oneIteration.args fun _ => 1) zeroMemory) = .ok s' := by
    rw [iterations_succ]
    exact hs'
  have hsmin : (channelWeightDiag (exact 1) zeroMemory.w2 (oneIteration.args fun _ => 1).m
      (oneIteration.args fun _ => 1).nch (oneIteration.args fun _ => 1).sigma).2 = 1 := oneIteration_weights
  refine ⟨(s'.kept, copyBack 192 8 s'.mem), ?_⟩
  unfold mcwnnmAdmmGram8 admm
  dsimp only
  rw [hsmin, if_pos (by simp [exact])]
  exact Loops.bind_eq_ok.mpr ⟨s', hrun, rfl⟩

theorem mcwnnmAdmm_paths_agree_zero : ∃ kept mem₁ mem₂,
    mcwnnmAdmmGram8 (exact 1) zeroSolvers (oneIteration.args fun _ => 1) zeroMemory = .ok (kept, mem₁) ∧
      general (exact 1) zeroSolvers 0 (oneIteration.args fun _ => 1) zeroMemory = .ok (kept, mem₂) ∧
        mem₁.Y = mem₂.Y := by
  obtain ⟨⟨kept, mem₁⟩, hrun⟩ := oneIteration_completes
  obtain ⟨mem₂, hgeneral, hY⟩ := mcwnnmAdmm_paths_agree.2.2 1 zeroSolvers oneIteration (fun _ => 1) zeroMemory
    oneIteration_refused rfl (fun it hit s hs => by
      obtain rfl : it = 0 := Nat.lt_one_iff.mp hit
      cases hs
      rw [enter_zero rfl (cells_zero 192 8) (cells_zero 192 8) (show (0 : ℝ) < 3 by norm_num)]
      exact zeroSolvers_exact 192) kept mem₁ hrun
  exact ⟨kept, mem₁, mem₂, hrun, hgeneral, hY⟩

end Exact

end NssFactory.Cpu.McwnnmAdmm
