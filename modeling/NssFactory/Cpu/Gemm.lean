import Mathlib.Algebra.Order.Ring.Nat
import NssFactory.Lib.Lines
import NssFactory.Lib.Tiles

/-!
# The products of the WNNM solvers

`GemmNN` shares its output among panel families: two vectors by eight columns where a vector has
sixteen lanes, two by four in an AVX2 build, four by four, and four by one for the columns that
are left. Each family finishes its own columns with single vectors and then single rows. Matrices
are stored by columns; a load outside them faults here.

Whatever panel has an entry, it is the same chain over `t` (`gemmNN_tiles`), and so for `GemmTN`
with its four columns at a time.
-/

namespace NssFactory.Cpu.Gemm

open Tiles

/-- The float operations; `reduceSum` adds the lanes of a vector in the target's order. -/
structure Ops (α : Type) (N : Nat) where
  zero : α
  add : α → α → α
  mul : α → α → α
  mulAdd : α → α → α → α
  reduceSum : (Fin N → α) → α

abbrev Mem (α : Type) := Nat → Option α

/-- The arguments of a product. -/
structure Product (α : Type) where
  m : Nat
  n : Nat
  k : Nat
  A : Mem α
  lda : Nat
  B : Mem α
  ldb : Nat
  ldc : Nat

section Code

variable {α : Type} {N : Nat} (o : Ops α N) (p : Product α)

def loadU (N : Nat) (M : Mem α) (first : Nat) : Option (Fin N → α) := gather fun l : Fin N => M (first + l)

/-- `R` vectors of rows by `Cn` columns, accumulated side by side. -/
def panel (R Cn i0 j0 : Nat) : Option (List (Nat × α)) := do
  let c ← (List.range p.k).foldlM (fun (c : Fin Cn → Fin R → Fin N → α) t => do
    let a ← gather fun r : Fin R => loadU N p.A (t * p.lda + i0 + r * N)
    let b ← gather fun q : Fin Cn => p.B (t + (j0 + q) * p.ldb)
    return fun q r l => o.mulAdd (a r l) (b q) (c q r l)) fun _ _ _ => o.zero
  return (List.finRange Cn).flatMap fun q : Fin Cn => (List.finRange R).flatMap fun r : Fin R =>
    (List.finRange N).map fun l : Fin N => ((j0 + q) * p.ldc + (i0 + r * N + l), c q r l)

/-- `R` vectors of one column; here `B` is the first factor. -/
def strip (R i j : Nat) : Option (List (Nat × α)) := do
  let c ← (List.range p.k).foldlM (fun (c : Fin R → Fin N → α) t => do
    let b ← p.B (j * p.ldb + t)
    let a ← gather fun r : Fin R => loadU N p.A (t * p.lda + i + r * N)
    return fun r l => o.mulAdd b (a r l) (c r l)) fun _ _ => o.zero
  return (List.finRange R).flatMap fun r : Fin R =>
    (List.finRange N).map fun l : Fin N => (j * p.ldc + (i + r * N + l), c r l)

/-- One entry by scalar arithmetic. -/
def scalarEntry (i j : Nat) : Option (List (Nat × α)) := do
  let s ← (List.range p.k).foldlM (fun s t => do
    let a ← p.A (i + t * p.lda)
    let b ← p.B (j * p.ldb + t)
    return o.add s (o.mul a b)) o.zero
  return [(j * p.ldc + i, s)]

/-- The rows of column `j` from `i` on: single vectors, then single rows. -/
def finish (i j : Nat) : Option (List (Nat × α)) := do
  let vectors ← each (starts N i p.m) fun i => strip o p 1 i j
  let rows ← each (List.range' (stop N i p.m) (p.m - stop N i p.m)) fun i => scalarEntry o p i j
  return vectors ++ rows

/-- Whether a panel family of `R` vectors has its loop entered at all. -/
def entered (N : Nat) (on : Bool) (R : Nat) : Bool := on && decide (R * N ≤ p.m)

def family (on : Bool) (R Cn j0 : Nat) : Option (List (Nat × α)) :=
  if entered p N on R then
    each (starts Cn j0 p.n) fun j0 => do
      let panels ← each (starts (R * N) 0 p.m) fun i0 => panel o p R Cn i0 j0
      let tail ← each (List.range' j0 Cn) fun j => finish o p (stop (R * N) 0 p.m) j
      return panels ++ tail
  else some []

/-- The first column the family leaves. -/
def familyEnd (N : Nat) (on : Bool) (R Cn j0 : Nat) : Nat :=
  if entered p N on R then stop Cn j0 p.n else j0

/-- The columns that no panel of several columns has taken. -/
def lastColumns (j0 : Nat) : Option (List (Nat × α)) :=
  each (List.range' j0 (p.n - j0)) fun j => do
    let strips ← each (starts (4 * N) 0 p.m) fun i0 => strip o p 4 i0 j
    let tail ← finish o p (stop (4 * N) 0 p.m) j
    return strips ++ tail

/-- `GemmNN` for `k > 0`; `avx2` says that the build has the AVX2 panel and it is enabled. -/
def panels (avx2 : Bool) : Option (List (Nat × α)) := do
  let j1 := familyEnd p N (decide (N = 16)) 2 8 0
  let j2 := familyEnd p N avx2 2 4 j1
  let j3 := familyEnd p N true 4 4 j2
  let wide ← family o p (decide (N = 16)) 2 8 0
  let narrow ← family o p avx2 2 4 j1
  let generic ← family o p true 4 4 j2
  let rest ← lastColumns o p j3
  return wide ++ narrow ++ generic ++ rest

/-- The stores of `GemmNN` to `C`, in order, or `none` where it reads outside `A` or `B`. -/
def gemmNN (avx2 : Bool) (m n k : Int) (A : Mem α) (lda : Nat) (B : Mem α) (ldb ldc : Nat) :
    Option (List (Nat × α)) :=
  if m < 1 ∨ n < 1 ∨ k < 0 then some []
  else if k = 0 then
    some ((List.range n.toNat).flatMap fun col =>
      (List.range m.toNat).map fun i => (col * ldc + i, o.zero))
  else panels o ⟨m.toNat, n.toNat, k.toNat, A, lda, B, ldb, ldc⟩ avx2

/-! ### `GemmTN` -/

/-- Four columns of `A` against column `j` of `B`. -/
def quad (t j : Nat) : Option (List (Nat × α)) := do
  let acc ← (starts N 0 p.m).foldlM (fun (acc : Fin 4 → Fin N → α) i => do
    let bv ← loadU N p.B (j * p.ldb + i)
    let a ← gather fun q : Fin 4 => loadU N p.A ((t + q) * p.lda + i)
    return fun q l => o.mulAdd (a q l) (bv l) (acc q l)) fun _ _ => o.zero
  let s ← (List.range' (stop N 0 p.m) (p.m - stop N 0 p.m)).foldlM (fun (s : Fin 4 → α) i => do
    let bv ← p.B (j * p.ldb + i)
    let a ← gather fun q : Fin 4 => p.A ((t + q) * p.lda + i)
    return fun q => o.add (s q) (o.mul (a q) bv)) fun q => o.reduceSum (acc q)
  return (List.finRange 4).map fun q : Fin 4 => (j * p.ldc + (t + q), s q)

/-- The dot product of `n` elements at `a` and at `b`. -/
def dotN (A : Mem α) (a : Nat) (B : Mem α) (b n : Nat) : Option α := do
  let acc ← (starts (4 * N) 0 n).foldlM (fun (acc : Fin 4 → Fin N → α) i => do
    let av ← gather fun q : Fin 4 => loadU N A (a + i + q * N)
    let bv ← gather fun q : Fin 4 => loadU N B (b + i + q * N)
    return fun q l => o.mulAdd (av q l) (bv q l) (acc q l)) fun _ _ => o.zero
  let i := stop (4 * N) 0 n
  let sum ← (starts N i n).foldlM (fun (acc : Fin N → α) i => do
    let av ← loadU N A (a + i)
    let bv ← loadU N B (b + i)
    return fun l => o.mulAdd (av l) (bv l) (acc l))
    fun l => o.add (o.add (acc 0 l) (acc 1 l)) (o.add (acc 2 l) (acc 3 l))
  let i := stop N i n
  (List.range' i (n - i)).foldlM (fun s i => do
    let av ← A (a + i)
    let bv ← B (b + i)
    return o.add s (o.mul av bv)) (o.reduceSum sum)

/-- The stores of `GemmTN` to `C`. -/
def gemmTN (m n k : Int) (A : Mem α) (lda : Nat) (B : Mem α) (ldb ldc : Nat) :
    Option (List (Nat × α)) :=
  if m < 1 ∨ n < 1 ∨ k < 1 then some []
  else
    let p : Product α := ⟨m.toNat, n.toNat, k.toNat, A, lda, B, ldb, ldc⟩
    each (List.range p.n) fun j => do
      let quads ← each (starts 4 0 p.k) fun t => quad o p t j
      let rest ← each (List.range' (stop 4 0 p.k) (p.k - stop 4 0 p.k)) fun t => do
        let s ← dotN o p.A (t * p.lda) p.B (j * p.ldb) p.m
        return [(j * p.ldc + t, s)]
      return quads ++ rest

end Code

/-! ## What an entry is -/

section Entries

variable {α : Type} {N : Nat} (o : Ops α N)

/-- The fused chain over a row of `A` and a column of `B`. -/
def fused (k : Nat) (a b : Nat → α) : α :=
  (List.range k).foldl (fun c t => o.mulAdd (a t) (b t) c) o.zero

def scalar (k : Nat) (a b : Nat → α) : α :=
  (List.range k).foldl (fun s t => o.add s (o.mul (a t) (b t))) o.zero

/-- Row `i` of a product of `m` rows: fused in the complete vectors. -/
def entryNN (m k i : Nat) (a b : Nat → α) : α :=
  if i < m / N * N then fused o k a b else scalar o k a b

variable {o} {p : Product α} {a b : Nat → Nat → α} {R Cn i i0 j j0 : Nat}

/-- `A` has the rows `a i` and `B` the columns `b j`. -/
structure Given (p : Product α) (a b : Nat → Nat → α) : Prop where
  row : ∀ i < p.m, ∀ t < p.k, p.A (i + t * p.lda) = some (a i t)
  column : ∀ j < p.n, ∀ t < p.k, p.B (t + j * p.ldb) = some (b j t)

theorem lane_lt (r : Fin R) (l : Fin N) : r * N + l < R * N := by
  have hle : ((r : Nat) + 1) * N ≤ R * N := Nat.mul_le_mul_right N r.isLt
  have hsucc : ((r : Nat) + 1) * N = r * N + N := by ring
  have := l.isLt
  omega

theorem Given.rows (h : Given p a b) {t : Nat} (ht : t < p.k) (hrows : i + R * N ≤ p.m) :
    (gather fun r : Fin R => loadU N p.A (t * p.lda + i + r * N)) =
      some fun (r : Fin R) (l : Fin N) => a (i + r * N + l) t := by
  refine gather_eq fun r => gather_eq fun l => ?_
  have hlane := lane_lt r l
  rw [← h.row (i + r * N + l) (by omega) t ht]
  congr 1
  ring

theorem panel_eq (h : Given p a b) (hrows : i0 + R * N ≤ p.m) (hcols : j0 + Cn ≤ p.n) :
    panel o p R Cn i0 j0 = some ((List.range' j0 Cn).flatMap fun j =>
      (List.range' i0 (R * N)).map fun i => (j * p.ldc + i, fused o p.k (a i) (b j))) := by
  rw [panel, foldlM_eq (g := fun (c : Fin Cn → Fin R → Fin N → α) t q r l =>
    o.mulAdd (a (i0 + r * N + l) t) (b (j0 + q) t) (c q r l))]
  · refine congrArg some ?_
    rw [range'_eq_finRange j0 Cn, List.flatMap_map]
    refine List.flatMap_congr fun q _ => ?_
    rw [← finRange_flatMap]
    refine List.flatMap_congr fun r _ => List.map_congr_left fun l _ => ?_
    exact congrArg (Prod.mk _)
      (List.foldl_hom (fun c : Fin Cn → Fin R → Fin N → α => c q r l) fun _ _ => rfl).symm
  · intro t ht c
    rw [List.mem_range] at ht
    have hload : (gather fun q : Fin Cn => p.B (t + (j0 + q) * p.ldb)) =
        some fun q : Fin Cn => b (j0 + q) t :=
      gather_eq fun q => h.column (j0 + q) (by have := q.isLt; omega) t ht
    rw [h.rows ht hrows, hload]
    rfl

theorem Given.bj (h : Given p a b) {t : Nat} (ht : t < p.k) (hj : j < p.n) :
    p.B (j * p.ldb + t) = some (b j t) := by
  rw [Nat.add_comm]
  exact h.column j hj t ht

/-- The product of two factors may be fused either way round. -/
theorem strip_eq (hcomm : ∀ x y z, o.mulAdd x y z = o.mulAdd y x z) (h : Given p a b)
    (hrows : i + R * N ≤ p.m) (hj : j < p.n) :
    strip o p R i j = some ((List.range' i (R * N)).map fun i =>
      (j * p.ldc + i, fused o p.k (a i) (b j))) := by
  rw [strip, foldlM_eq (g := fun (c : Fin R → Fin N → α) t r l =>
    o.mulAdd (a (i + r * N + l) t) (b j t) (c r l))]
  · refine congrArg some ?_
    rw [← finRange_flatMap]
    refine List.flatMap_congr fun r _ => List.map_congr_left fun l _ => ?_
    exact congrArg (Prod.mk _)
      (List.foldl_hom (fun c : Fin R → Fin N → α => c r l) fun _ _ => rfl).symm
  · intro t ht c
    rw [List.mem_range] at ht
    simp only [h.bj ht hj, h.rows ht hrows, Option.bind_eq_bind, Option.bind_some, hcomm (b j t)]
    rfl

theorem scalarEntry_eq (h : Given p a b) (hi : i < p.m) (hj : j < p.n) :
    scalarEntry o p i j = some [(j * p.ldc + i, scalar o p.k (a i) (b j))] := by
  rw [scalarEntry, foldlM_eq (g := fun s t => o.add s (o.mul (a i t) (b j t)))]
  · rfl
  · intro t ht s
    rw [List.mem_range] at ht
    rw [h.row i hi t ht, h.bj ht hj]
    rfl

/-! ### Columns -/

variable (o p a b) in
/-- The store of an entry. -/
def cell (j i : Nat) : Nat × α := (j * p.ldc + i, entryNN o p.m p.k i (a i) (b j))

variable (o p a b) in
def column (j : Nat) : List (Nat × α) := (List.range p.m).map (cell o p a b j)

theorem fused_cells (lo len : Nat) (h : lo + len ≤ p.m / N * N) :
    ((List.range' lo len).map fun i => (j * p.ldc + i, fused o p.k (a i) (b j))) =
      (List.range' lo len).map (cell o p a b j) := by
  refine List.map_congr_left fun i hi => ?_
  have hi := List.mem_range'_1.mp hi
  rw [cell, entryNN, if_pos (by omega)]

/-- Complete tiles of several vectors are complete vectors. -/
theorem stop_tiles (hN : 0 < N) :
    stop (R * N) 0 p.m = p.m / (R * N) * R * N ∧ stop (R * N) 0 p.m ≤ p.m / N * N := by
  have heq : stop (R * N) 0 p.m = p.m / (R * N) * R * N := by
    rw [stop, Nat.sub_zero, Nat.zero_add, Nat.mul_assoc]
  have hfit : p.m / (R * N) * R * N ≤ p.m := by
    rw [Nat.mul_assoc]
    exact Nat.div_mul_le_self p.m (R * N)
  have hvectors : p.m / (R * N) * R ≤ p.m / N := (Nat.le_div_iff_mul_le hN).mpr hfit
  exact ⟨heq, heq ▸ Nat.mul_le_mul_right N hvectors⟩

theorem tiles_cells (hN : 0 < N) :
    ((starts (R * N) 0 p.m).flatMap fun i0 =>
      (List.range' i0 (R * N)).map fun i => (j * p.ldc + i, fused o p.k (a i) (b j))) =
      (List.range' 0 (stop (R * N) 0 p.m)).map (cell o p a b j) := by
  have := (stop_tiles (p := p) (R := R) hN).2
  rw [← List.map_flatMap, starts_flatMap, Nat.sub_zero, fused_cells _ _ (by omega)]

theorem finish_eq (hN : 0 < N) (hcomm : ∀ x y z, o.mulAdd x y z = o.mulAdd y x z) (h : Given p a b)
    (hj : j < p.n) {c : Nat} (hi : c * N ≤ p.m) :
    finish o p (c * N) j = some ((List.range' (c * N) (p.m - c * N)).map (cell o p a b j)) := by
  have hstop : stop N (c * N) p.m = p.m / N * N := stop_zero_mul hN hi
  have hle : stop N (c * N) p.m ≤ p.m := stop_le hi
  have hge : c * N ≤ stop N (c * N) p.m := le_stop
  have hvectors : each (starts N (c * N) p.m) (fun i => strip o p 1 i j) =
      some ((List.range' (c * N) (stop N (c * N) p.m - c * N)).map (cell o p a b j)) := by
    rw [each_eq fun i hi => strip_eq hcomm h (R := 1) (by have := (mem_starts hi).2.1; omega) hj,
      Nat.one_mul, ← List.map_flatMap, starts_flatMap, fused_cells _ _ (by omega)]
  have hrows : each (List.range' (stop N (c * N) p.m) (p.m - stop N (c * N) p.m))
      (fun i => scalarEntry o p i j) =
      some ((List.range' (stop N (c * N) p.m) (p.m - stop N (c * N) p.m)).map (cell o p a b j)) := by
    rw [each_eq (g := fun i => [cell o p a b j i]) fun i hi => ?_, ← List.map_eq_flatMap]
    · have hi := List.mem_range'_1.mp hi
      rw [scalarEntry_eq h (by omega) hj, cell, entryNN, if_neg (by omega)]
  rw [finish, hvectors, hrows, ← range_tiles hge hle, List.map_append]
  rfl

/-- A column whose tiles have been stored, finished. -/
theorem tiles_append :
    (List.range' 0 (stop (R * N) 0 p.m)).map (cell o p a b j) ++
      (List.range' (stop (R * N) 0 p.m) (p.m - stop (R * N) 0 p.m)).map (cell o p a b j) =
        column o p a b j := by
  have hle : stop (R * N) 0 p.m ≤ p.m := stop_le (Nat.zero_le _)
  have h := range_tiles (Nat.zero_le (stop (R * N) 0 p.m)) hle
  rw [Nat.sub_zero, Nat.sub_zero] at h
  rw [← List.map_append, h, column, List.range_eq_range']

theorem finish_tiles (hN : 0 < N) (hcomm : ∀ x y z, o.mulAdd x y z = o.mulAdd y x z)
    (h : Given p a b) (hj : j < p.n) :
    finish o p (stop (R * N) 0 p.m) j =
      some ((List.range' (stop (R * N) 0 p.m) (p.m - stop (R * N) 0 p.m)).map (cell o p a b j)) := by
  have hle : stop (R * N) 0 p.m ≤ p.m := stop_le (Nat.zero_le _)
  rw [(stop_tiles hN).1] at hle ⊢
  exact finish_eq hN hcomm h hj hle

theorem familyEnd_le (N : Nat) (on : Bool) (R Cn : Nat) (hj : j0 ≤ p.n) :
    j0 ≤ familyEnd p N on R Cn j0 ∧ familyEnd p N on R Cn j0 ≤ p.n := by
  unfold familyEnd
  split
  · exact ⟨le_stop, stop_le hj⟩
  · exact ⟨Nat.le_refl _, hj⟩

/-- A family stores whole columns, up to where the next one begins. -/
theorem family_perm (hN : 0 < N) (hcomm : ∀ x y z, o.mulAdd x y z = o.mulAdd y x z)
    (h : Given p a b) (on : Bool) (R Cn j0 : Nat) :
    ∃ stores, family o p on R Cn j0 = some stores ∧
      stores.Perm ((List.range' j0 (familyEnd p N on R Cn j0 - j0)).flatMap (column o p a b)) := by
  unfold family familyEnd
  split
  · rw [each_eq (g := fun j0 =>
      ((starts (R * N) 0 p.m).flatMap fun i0 => (List.range' j0 Cn).flatMap fun j =>
        (List.range' i0 (R * N)).map fun i => (j * p.ldc + i, fused o p.k (a i) (b j))) ++
      (List.range' j0 Cn).flatMap fun j =>
        (List.range' (stop (R * N) 0 p.m) (p.m - stop (R * N) 0 p.m)).map (cell o p a b j))
      fun j0 hj0 => ?_]
    · refine ⟨_, rfl, ?_⟩
      rw [← starts_flatMap, List.flatMap_assoc]
      refine List.Perm.flatMap_left _ fun j0 _ => ?_
      refine ((flatMap_comm _ _ _).append_right _).trans ?_
      refine (List.flatMap_append_perm _ _ _).trans (List.Perm.of_eq ?_)
      refine List.flatMap_congr fun j _ => ?_
      rw [tiles_cells hN, tiles_append]
    · have hcols := (mem_starts hj0).2.1
      rw [each_eq fun i0 hi0 => panel_eq h (mem_starts hi0).2.1 hcols,
        each_eq fun j hj => finish_tiles hN hcomm h (by have := List.mem_range'_1.mp hj; omega)]
      rfl
  · exact ⟨[], rfl, by simp⟩

theorem lastColumns_eq (hN : 0 < N) (hcomm : ∀ x y z, o.mulAdd x y z = o.mulAdd y x z)
    (h : Given p a b) :
    lastColumns o p j0 = some ((List.range' j0 (p.n - j0)).flatMap (column o p a b)) := by
  refine each_eq fun j hj => ?_
  have hj : j < p.n := by
    have := List.mem_range'_1.mp hj
    omega
  rw [each_eq fun i0 hi0 => strip_eq hcomm h (R := 4) (mem_starts hi0).2.1 hj,
    finish_tiles hN hcomm h hj, tiles_cells hN, ← tiles_append (R := 4)]
  rfl

/-- The families leave no column out and share none. -/
theorem panels_perm (hN : 0 < N) (hcomm : ∀ x y z, o.mulAdd x y z = o.mulAdd y x z)
    (h : Given p a b) (avx2 : Bool) :
    ∃ stores, panels o p avx2 = some stores ∧
      stores.Perm ((List.range p.n).flatMap (column o p a b)) := by
  have h1 := familyEnd_le N (decide (N = 16)) 2 8 (Nat.zero_le p.n)
  obtain ⟨wide, hwide, hwide'⟩ := family_perm hN hcomm h (decide (N = 16)) 2 8 0
  revert h1 hwide'
  generalize hj1 : familyEnd p N (decide (N = 16)) 2 8 0 = j1
  intro h1 hwide'
  have h2 := familyEnd_le N avx2 2 4 h1.2
  obtain ⟨narrow, hnarrow, hnarrow'⟩ := family_perm hN hcomm h avx2 2 4 j1
  revert h2 hnarrow'
  generalize hj2 : familyEnd p N avx2 2 4 j1 = j2
  intro h2 hnarrow'
  have h3 := familyEnd_le N true 4 4 h2.2
  obtain ⟨generic, hgeneric, hgeneric'⟩ := family_perm hN hcomm h true 4 4 j2
  have hrun : panels o p avx2 = some (wide ++ narrow ++ generic ++
      (List.range' (familyEnd p N true 4 4 j2) (p.n - familyEnd p N true 4 4 j2)).flatMap (column o p a b)) := by
    simp only [panels, hj1, hj2, hwide, hnarrow, hgeneric, lastColumns_eq hN hcomm h]
    rfl
  refine ⟨_, hrun, (((hwide'.append hnarrow').append hgeneric').append_right _).trans (List.Perm.of_eq ?_)⟩
  rw [← List.flatMap_append, range_tiles h1.1 h2.1, ← List.flatMap_append, range_tiles (by omega) h3.1,
    ← List.flatMap_append, range_tiles (by omega) h3.2, Nat.sub_zero, List.range_eq_range']

end Entries

/-! ## Entries of `GemmTN` -/

section Transposed

variable {α : Type} {N : Nat} (o : Ops α N)

/-- Complete vectors fused lane by lane, the lanes added, then row by row. -/
def quadChain (m : Nat) (a b : Nat → α) : α :=
  (List.range' (stop N 0 m) (m - stop N 0 m)).foldl (fun s i => o.add s (o.mul (a i) (b i)))
    (o.reduceSum ((starts N 0 m).foldl (fun acc i l => o.mulAdd (a (i + l)) (b (i + l)) (acc l))
      fun _ => o.zero))

/-- The accumulators of four vectors at a time, added, before the vectors that are left. -/
def dotSum (m : Nat) (a b : Nat → α) : Fin N → α :=
  let acc := (starts (4 * N) 0 m).foldl (fun (acc : Fin 4 → Fin N → α) i q l =>
    o.mulAdd (a (i + q * N + l)) (b (i + q * N + l)) (acc q l)) fun _ _ => o.zero
  fun l => o.add (o.add (acc 0 l) (acc 1 l)) (o.add (acc 2 l) (acc 3 l))

def dotChain (m : Nat) (a b : Nat → α) : α :=
  let i := stop N (stop (4 * N) 0 m) m
  (List.range' i (m - i)).foldl (fun s i => o.add s (o.mul (a i) (b i)))
    (o.reduceSum ((starts N (stop (4 * N) 0 m) m).foldl
      (fun acc i l => o.mulAdd (a (i + l)) (b (i + l)) (acc l)) (dotSum o m a b)))

/-- An entry of columns `a` and `b` of `m` rows; `last` for the rows after the last four. -/
def entryTN (m : Nat) (last : Bool) (a b : Nat → α) : α :=
  if last then dotChain o m a b else quadChain o m a b

variable {o} {p : Product α} {a b : Nat → Nat → α} {t j : Nat}

/-- `A` has the columns `a t` and `B` the columns `b j`, both of `m` rows. -/
structure GivenTN (p : Product α) (a b : Nat → Nat → α) : Prop where
  left : ∀ t < p.k, ∀ i < p.m, p.A (t * p.lda + i) = some (a t i)
  right : ∀ j < p.n, ∀ i < p.m, p.B (j * p.ldb + i) = some (b j i)

/-- A vector inside a column. -/
theorem loadU_column {M : Mem α} {base m i : Nat} {v : Nat → α}
    (h : ∀ i < m, M (base + i) = some (v i)) (hi : i + N ≤ m) :
    loadU N M (base + i) = some fun l : Fin N => v (i + l) := by
  refine gather_eq fun l => ?_
  have := l.isLt
  rw [Nat.add_assoc]
  exact h (i + l) (by omega)

theorem quad_eq (h : GivenTN p a b) (ht : t + 4 ≤ p.k) (hj : j < p.n) :
    quad o p t j = some ((List.range' t 4).map fun t => (j * p.ldc + t, quadChain o p.m (a t) (b j))) := by
  have hleft : ∀ q : Fin 4, ∀ i < p.m, p.A ((t + q) * p.lda + i) = some (a (t + q) i) := by
    intro q
    have := q.isLt
    exact h.left (t + q) (by omega)
  rw [quad, foldlM_eq (g := fun (acc : Fin 4 → Fin N → α) i q l =>
    o.mulAdd (a (t + q) (i + l)) (b j (i + l)) (acc q l)) fun i hi acc => ?_]
  · rw [Option.bind_eq_bind, Option.bind_some, foldlM_eq (g := fun (s : Fin 4 → α) i q =>
      o.add (s q) (o.mul (a (t + q) i) (b j i))) fun i hi s => ?_]
    · refine congrArg some ?_
      rw [range'_eq_finRange t 4, List.map_map]
      refine List.map_congr_left fun q _ => congrArg (Prod.mk _) ?_
      -- one of the four columns, first in the scalar loop, then in the vector loop
      have hvectors := foldl_at (fun (q : Fin 4) (acc : Fin N → α) i l =>
        o.mulAdd (a (t + q) (i + l)) (b j (i + l)) (acc l)) (fun _ _ => o.zero) (starts N 0 p.m) q
      rw [quadChain, ← hvectors]
      exact (List.foldl_hom (fun s : Fin 4 → α => s q) fun _ _ => rfl).symm
    · have hi : i < p.m := by
        have hle : stop N 0 p.m ≤ p.m := stop_le (Nat.zero_le _)
        have := List.mem_range'_1.mp hi
        omega
      rw [h.right j hj i hi, gather_eq fun q => hleft q i hi]
      rfl
  · have hi := (mem_starts hi).2.1
    rw [loadU_column (h.right j hj) hi, gather_eq fun q => loadU_column (hleft q) hi]
    rfl

theorem dotN_eq {A B : Mem α} {x y m : Nat} {u v : Nat → α} (hA : ∀ i < m, A (x + i) = some (u i))
    (hB : ∀ i < m, B (y + i) = some (v i)) : dotN o A x B y m = some (dotChain o m u v) := by
  have hle4 : stop (4 * N) 0 m ≤ m := stop_le (Nat.zero_le _)
  have hle : stop N (stop (4 * N) 0 m) m ≤ m := stop_le hle4
  rw [dotN, foldlM_eq (g := fun (acc : Fin 4 → Fin N → α) i q l =>
    o.mulAdd (u (i + q * N + l)) (v (i + q * N + l)) (acc q l)) fun i hi acc => ?_]
  · rw [Option.bind_eq_bind, Option.bind_some]
    dsimp only
    rw [foldlM_eq (g := fun (acc : Fin N → α) i l =>
      o.mulAdd (u (i + l)) (v (i + l)) (acc l)) fun i hi acc => ?_]
    · rw [Option.bind_eq_bind, Option.bind_some, foldlM_eq
        (g := fun s i => o.add s (o.mul (u i) (v i))) fun i hi s => ?_]
      · rfl
      · have hi : i < m := by
          have := List.mem_range'_1.mp hi
          omega
        rw [hA i hi, hB i hi]
        rfl
    · have hi := (mem_starts hi).2.1
      rw [loadU_column hA hi, loadU_column hB hi]
      rfl
  · have hi := (mem_starts hi).2.1
    have hvector : ∀ {M : Mem α} {z : Nat} {w : Nat → α}, (∀ i < m, M (z + i) = some (w i)) →
        (gather fun q : Fin 4 => loadU N M (z + i + q * N)) =
          some fun (q : Fin 4) (l : Fin N) => w (i + q * N + l) := by
      intro M z w hM
      refine gather_eq fun q => ?_
      have hq : (q + 1) * N ≤ 4 * N := Nat.mul_le_mul_right N q.isLt
      have hsucc : ((q : Nat) + 1) * N = q * N + N := by ring
      rw [Nat.add_assoc]
      exact loadU_column hM (by omega)
    rw [hvector hA, hvector hB]
    rfl

/-- The rows of a column of `C`: four at a time, then the last ones. -/
theorem columnTN_eq (h : GivenTN p a b) (hj : j < p.n) :
    (do
      let quads ← each (starts 4 0 p.k) fun t => quad o p t j
      let rest ← each (List.range' (stop 4 0 p.k) (p.k - stop 4 0 p.k)) fun t => do
        let s ← dotN o p.A (t * p.lda) p.B (j * p.ldb) p.m
        return [(j * p.ldc + t, s)]
      return quads ++ rest) = some ((List.range p.k).map fun t =>
        (j * p.ldc + t, entryTN o p.m (decide (p.k - p.k % 4 ≤ t)) (a t) (b j))) := by
  have hstop : stop 4 0 p.k = p.k - p.k % 4 := by
    unfold stop
    omega
  have hsplit := range_tiles (show 0 ≤ stop 4 0 p.k by omega) (show stop 4 0 p.k ≤ p.k by omega)
  rw [Nat.sub_zero, Nat.sub_zero] at hsplit
  have hrest : each (List.range' (stop 4 0 p.k) (p.k - stop 4 0 p.k)) (fun t => (do
      let s ← dotN o p.A (t * p.lda) p.B (j * p.ldb) p.m
      return [(j * p.ldc + t, s)] : Option (List (Nat × α)))) =
        some ((List.range' (stop 4 0 p.k) (p.k - stop 4 0 p.k)).map fun t =>
          (j * p.ldc + t, dotChain o p.m (a t) (b j))) := by
    rw [List.map_eq_flatMap]
    refine each_eq fun t ht => ?_
    have ht := List.mem_range'_1.mp ht
    rw [dotN_eq (h.left t (by omega)) (h.right j hj)]
    rfl
  rw [each_eq fun t ht => quad_eq h (mem_starts ht).2.1 hj, hrest, ← List.map_flatMap, starts_flatMap,
    List.range_eq_range', ← hsplit, List.map_append, Nat.sub_zero]
  refine congrArg some (congrArg₂ _ ?_ ?_) <;> refine List.map_congr_left fun t ht => ?_
  · have ht := List.mem_range'_1.mp ht
    rw [entryTN, decide_eq_false (by omega)]
    rfl
  · have ht := List.mem_range'_1.mp ht
    rw [entryTN, decide_eq_true (by omega)]
    rfl

end Transposed

/-! ## The products -/

section Products

variable {α : Type} {N : Nat}

/-- The entries of a matrix of `rows` by `cols` and their addresses. -/
def cells (ld rows cols : Nat) (entry : Nat → Nat → α) : List (Nat × α) :=
  (List.range cols).flatMap fun j => (List.range rows).map fun i => (j * ld + i, entry i j)

/-- `run` does not fault, stores every entry once and nothing else. -/
def StoresOnce (run : Option (List (Nat × α))) (ld rows cols : Nat) (entry : Nat → Nat → α) : Prop :=
  ∃ stores, run = some stores ∧ stores.Perm (cells ld rows cols entry) ∧
    (stores.map Prod.fst).Nodup ∧
    ∀ C : Nat → α, (∀ j < cols, ∀ i < rows, Lines.storeAll stores C (j * ld + i) = entry i j) ∧
      ∀ x, (∀ j < cols, ∀ i < rows, x ≠ j * ld + i) → Lines.storeAll stores C x = C x

variable {ld rows cols : Nat} {entry : Nat → Nat → α} {stores : List (Nat × α)}

theorem mem_cells {s : Nat × α} :
    s ∈ cells ld rows cols entry ↔ ∃ j < cols, ∃ i < rows, s = (j * ld + i, entry i j) := by
  simp only [cells, List.mem_flatMap, List.mem_map, List.mem_range, eq_comm]

theorem address_inj {i i' j j' : Nat} (hi : i < ld) (hi' : i' < ld) (h : j * ld + i = j' * ld + i') :
    j = j' := by
  have hj : (j * ld + i) / ld = j := Lines.div_row hi
  rw [← hj, h, Lines.div_row hi']

/-- Padding keeps the columns apart. -/
theorem cells_nodup (h : rows ≤ ld) : ((cells ld rows cols entry).map Prod.fst).Nodup := by
  rw [cells, List.map_flatMap, List.nodup_flatMap]
  constructor
  · intro j _
    rw [List.map_map]
    refine List.Nodup.map_on ?_ List.nodup_range
    intro i _ i' _ heq
    exact Nat.add_left_cancel heq
  · refine List.nodup_range.imp ?_
    intro j j' hne x hx hx'
    simp only [List.map_map, List.mem_map, List.mem_range, Function.comp_apply] at hx hx'
    obtain ⟨i, hi, rfl⟩ := hx
    obtain ⟨i', hi', heq⟩ := hx'
    exact hne (address_inj (by omega) (by omega) heq).symm

theorem StoresOnce.of_perm {run : Option (List (Nat × α))} (stores : List (Nat × α)) (h : rows ≤ ld) (hrun : run = some stores)
    (hperm : stores.Perm (cells ld rows cols entry)) : StoresOnce run ld rows cols entry := by
  have hval : ∀ s ∈ stores, s.2 = entry (s.1 % ld) (s.1 / ld) := by
    intro s hs
    obtain ⟨j, -, i, hi, rfl⟩ := mem_cells.mp (hperm.mem_iff.mp hs)
    have hi : i < ld := by omega
    rw [Lines.mod_row hi, Lines.div_row hi]
  refine ⟨stores, hrun, hperm, (hperm.map _).nodup_iff.mpr (cells_nodup h), fun C => ⟨?_, ?_⟩⟩
  · intro j hj i hi
    have hmem : (j * ld + i, entry i j) ∈ stores := hperm.mem_iff.mpr (mem_cells.mpr ⟨j, hj, i, hi, rfl⟩)
    rw [Lines.storeAll_of_mem (fun x => entry (x % ld) (x / ld)) hval (List.mem_map_of_mem hmem)]
    exact (hval _ hmem).symm
  · intro x hx
    rw [Lines.storeAll_apply (fun x => entry (x % ld) (x / ld)) hval, if_neg]
    intro hmem
    obtain ⟨s, hs, rfl⟩ := List.mem_map.mp hmem
    obtain ⟨j, hj, i, hi, rfl⟩ := mem_cells.mp (hperm.mem_iff.mp hs)
    exact hx j hj i hi rfl

theorem gemmNN_eq (o : Ops α N) (hN : 0 < N) (hcomm : ∀ x y z, o.mulAdd x y z = o.mulAdd y x z)
    {m n : Nat} (k lda ldb ldc : Nat) (hm : 1 ≤ m) (hn : 1 ≤ n) (A B : Mem α) (avx2 : Bool)
    (a b : Nat → Nat → α) (hldc : m ≤ ldc) (hA : ∀ i < m, ∀ t < k, A (i + t * lda) = some (a i t))
    (hB : ∀ j < n, ∀ t < k, B (t + j * ldb) = some (b j t)) :
    StoresOnce (gemmNN o avx2 m n k A lda B ldb ldc) ldc m n
      fun i j => if k = 0 then o.zero else entryNN o m k i (a i) (b j) := by
  by_cases hk : k = 0
  · subst hk
    refine StoresOnce.of_perm _ hldc ?_ (List.Perm.refl _)
    rw [gemmNN, if_neg (by omega), if_pos (by simp)]
    rfl
  · obtain ⟨stores, hrun, hperm⟩ :=
      panels_perm (p := ⟨m, n, k, A, lda, B, ldb, ldc⟩) hN hcomm ⟨hA, hB⟩ avx2
    refine StoresOnce.of_perm stores hldc ?_ (hperm.trans (List.Perm.of_eq ?_))
    · rw [gemmNN, if_neg (by omega), if_neg (by omega)]
      exact hrun
    · simp only [if_neg hk]
      rfl

theorem gemmTN_eq (o : Ops α N) {m n k : Nat} (lda ldb ldc : Nat) (hm : 1 ≤ m) (hn : 1 ≤ n) (hk : 1 ≤ k)
    (A B : Mem α) (a b : Nat → Nat → α) (hldc : k ≤ ldc)
    (hA : ∀ t < k, ∀ i < m, A (t * lda + i) = some (a t i))
    (hB : ∀ j < n, ∀ i < m, B (j * ldb + i) = some (b j i)) :
    StoresOnce (gemmTN o m n k A lda B ldb ldc) ldc k n
      fun t j => entryTN o m (decide (k - k % 4 ≤ t)) (a t) (b j) := by
  refine StoresOnce.of_perm _ hldc ?_ (List.Perm.refl _)
  rw [gemmTN, if_neg (by omega)]
  exact each_eq fun j hj =>
    columnTN_eq (p := ⟨m, n, k, A, lda, B, ldb, ldc⟩) ⟨hA, hB⟩ (List.mem_range.mp hj)

/-- Both products store every entry once, as one chain of its own row and column, and read
nothing but the columns they are given: memory outside `A` and `B` may be absent. -/
theorem gemm_stores_once (o : Ops α N) (hN : 0 < N) (hcomm : ∀ x y z, o.mulAdd x y z = o.mulAdd y x z)
    (m n k lda ldb ldc : Nat) (hm : 1 ≤ m) (hn : 1 ≤ n) (A B : Mem α) :
    (∀ (avx2 : Bool) (a b : Nat → Nat → α), m ≤ ldc → (∀ i < m, ∀ t < k, A (i + t * lda) = some (a i t)) →
      (∀ j < n, ∀ t < k, B (t + j * ldb) = some (b j t)) →
      StoresOnce (gemmNN o avx2 m n k A lda B ldb ldc) ldc m n
        fun i j => if k = 0 then o.zero else entryNN o m k i (a i) (b j)) ∧
    (∀ a b : Nat → Nat → α, 1 ≤ k → k ≤ ldc → (∀ t < k, ∀ i < m, A (t * lda + i) = some (a t i)) →
      (∀ j < n, ∀ i < m, B (j * ldb + i) = some (b j i)) →
      StoresOnce (gemmTN o m n k A lda B ldb ldc) ldc k n
        fun t j => entryTN o m (decide (k - k % 4 ≤ t)) (a t) (b j)) := by
  constructor
  · intro avx2 a b hldc hA hB
    exact gemmNN_eq o hN hcomm k lda ldb ldc hm hn A B avx2 a b hldc hA hB
  · intro a b hk hldc hA hB
    exact gemmTN_eq o lda ldb ldc hm hn hk A B a b hldc hA hB

/-- The products of matrices of integers, with vectors of two lanes. -/
def intOps : Ops Int 2 where
  zero := 0
  add := (· + ·)
  mul := (· * ·)
  mulAdd x y z := x * y + z
  reduceSum v := v 0 + v 1

/-- Memory of `size` elements. -/
def upTo (size : Nat) : Mem Int := fun x => if x < size then some x else none

/-- Three rows, two columns and an inner dimension of one, with a row of padding in `C`. -/
theorem gemm_stores_once_three :
    StoresOnce (gemmNN intOps true 3 2 1 (upTo 3) 3 (upTo 6) 3 4) 4 3 2
      (fun i j => if (1 : Nat) = 0 then 0 else entryNN intOps 3 1 i (fun t => i + t * 3) fun t => j * 3 + t) ∧
    StoresOnce (gemmTN intOps 3 2 1 (upTo 3) 3 (upTo 6) 3 4) 4 1 2
      fun t j => entryTN intOps 3 (decide (1 - 1 % 4 ≤ t)) (fun i => t * 3 + i) fun i => j * 3 + i := by
  obtain ⟨hNN, hTN⟩ := gemm_stores_once intOps (by decide)
    (fun x y z => by simp [intOps, Int.mul_comm]) 3 2 1 3 3 4 (by decide) (by decide) (upTo 3) (upTo 6)
  exact ⟨hNN true (fun i t => i + t * 3) (fun j t => j * 3 + t) (by decide) (by decide) (by decide),
    hTN (fun t i => t * 3 + i) (fun j i => j * 3 + i) (by decide) (by decide) (by decide) (by decide)⟩

end Products

end NssFactory.Cpu.Gemm
