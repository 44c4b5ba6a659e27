import NssFactory.Cpu.Batch
import NssFactory.Cpu.SvdFinish
import NssFactory.Lib.Lines
import NssFactory.Lib.RankOne
import Mathlib.Tactic.NormNum

/-!
# The K-SVD update of a dictionary

`ksvd_lite_workspace` of `src/cpu/lssc/dict.cpp` with the pursuit of `omp.cpp`, in exact
arithmetic: sample patches are coded, then every atom in turn is refit to the patches that use
it. The SVD takes at most `kSvdMaxN` of them. `R` is to stay the product of dictionary and codes;
it does for the samples that were never passed over (`ksvd_update`), and a sample that uses an
atom but was not gathered for it keeps a column of `R` that is out of date (`ksvd_passed_over`).

Matrices are functions of the column, then the row. The scratch is as large as it has to be.
-/

namespace NssFactory.Cpu.Ksvd

open Finset RankOne SvdFinish

/-- Columns, each a function of the row. -/
abbrev Columns := Nat → Nat → ℝ

/-! ## Pursuit -/

section Pursuit

variable (m atoms : Nat) (D : Columns)

noncomputable def normalizeAtom (d : Nat → ℝ) : Nat → ℝ :=
  let n2 := dot m d d
  if n2 < 1e-12 then fun i => if i = 0 then 1 else 0
  else fun i => d i * (1 / √n2)

/-- The unused atom whose correlation with the residual is largest. -/
noncomputable def largest (residual : Nat → ℝ) (used : List Nat) : Option Nat × ℝ :=
  (List.range atoms).foldl (fun best atom =>
    if atom ∈ used then best
    else if best.2 < |dot m (D atom) residual| then (some atom, |dot m (D atom) residual|)
    else best) (none, 0)

noncomputable def choleskyFactor (n : Nat) (gram : Columns) : Columns :=
  (List.range n).foldl (fun g i => (List.range (i + 1)).foldl (fun g j =>
    let value := g i j - ∑ p ∈ range j, g i p * g j p
    Function.update g i (Function.update (g i) j
      (if i = j then √(max value 1e-12) else value / g j j))) g) gram

noncomputable def solveCholesky (n : Nat) (gram : Columns) (rhs : Nat → ℝ) : Nat → ℝ :=
  let g := choleskyFactor n gram
  let forward := (List.range n).foldl (fun x i =>
    Function.update x i ((x i - ∑ p ∈ range i, g i p * x p) / g i i)) rhs
  (List.range n).reverse.foldl (fun x i =>
    Function.update x i ((x i - ∑ p ∈ Ico (i + 1) n, g p i * x p) / g i i)) forward

/-- The rounds of the pursuit from a support on, with the number that is left. -/
noncomputable def ompFrom (y : Nat → ℝ) (support : List Nat) (residual a : Nat → ℝ) : Nat → Nat → ℝ
  | 0 => a
  | left + 1 =>
    match largest m atoms D residual support with
    | (none, _) => a
    | (some best, value) =>
      if value < 1e-12 then a
      else
        let support := support ++ [best]
        let atom := fun p => D (support.getD p 0)
        let rhs := solveCholesky support.length (fun p q => dot m (atom p) (atom q))
          fun p => dot m (atom p) y
        let a := Lines.storeAll ((List.range support.length).map fun p => (support.getD p 0, rhs p))
          fun _ => 0
        let residual := fun row => y row - ∑ p ∈ range support.length, rhs p * atom p row
        if dot m residual residual < 1e-12 then a else ompFrom y support residual a left

noncomputable def lsscOmp (sparsity : Nat) (y : Nat → ℝ) : Nat → ℝ :=
  ompFrom m atoms D y [] y (fun _ => 0) (min 8 (min atoms sparsity))

end Pursuit

/-! ## The update -/

structure State where
  D : Columns
  /-- The codes of a sample. -/
  A : Columns
  R : Columns

/-- `ns` -/
def samples (n : Nat) : Nat := min n 256

/-- A sample patch minus its mean. -/
noncomputable def samplePatch (m n : Nat) (patches : Columns) (j : Nat) : Nat → ℝ :=
  let src := j * n / samples n
  fun i => patches src i - (∑ i ∈ range m, patches src i) / m

/-- The first `nsvd` samples that use atom `k`. -/
noncomputable def support (ns : Nat) (A : Columns) (k : Nat) : List Nat :=
  let nsvd := min ns kSvdMaxN.toNat
  (List.range ns).foldl (fun supp j =>
    if supp.length < nsvd ∧ 1e-8 < |A j k| then supp ++ [j] else supp) []

section Update

variable (svd : Nat → Nat → GroupCells ℝ → Option (Svd ℝ)) (m atoms ns : Nat) (Y : Columns)

/-- `gemm_nn_hwy`: a column of the dictionary times the codes. -/
noncomputable def product (D A : Columns) (j i : Nat) : ℝ := ∑ k ∈ range atoms, D k i * A j k

/-- What the gathered samples lack without atom `k`. -/
noncomputable def gathered (st : State) (k : Nat) : GroupCells ℝ := fun i t =>
  let j := (support ns st.A k).getD t 0
  Y j i - st.R j i + st.D k i * st.A j k

/-- The decomposition that atom `k` is refit from. -/
noncomputable def refit (st : State) (k : Nat) : Option (Svd ℝ) :=
  let nsup := (support ns st.A k).length
  if nsup < 1 then none
  else if kSvdMaxM < m ∨ kSvdMaxN < nsup then none
  else svd m nsup (gathered ns Y st k)

/-- The sign that keeps the atom's direction. -/
noncomputable def refitSign (st : State) (k : Nat) (v : Svd ℝ) : ℝ :=
  if dot m (st.D k) (fun i => v.U i 0) < 0 then -1 else 1

noncomputable def refitAtom (st : State) (k : Nat) (v : Svd ℝ) : Nat → ℝ :=
  normalizeAtom m fun i => refitSign m st k v * v.U i 0

/-- `an` -/
noncomputable def refitCode (st : State) (k : Nat) (v : Svd ℝ) (t : Nat) : ℝ :=
  refitSign m st k v * v.S 0 * v.Vt 0 t

/-- A round of the last loop: the code of a gathered sample and its column of `R`. -/
noncomputable def writeSample (k : Nat) (supp : List Nat) (an : Nat → ℝ) (change : Nat → Nat → ℝ)
    (st : State) (t : Nat) : State :=
  let j := supp.getD t 0
  { st with
    A := Function.update st.A j (Function.update (st.A j) k (an t))
    R := Function.update st.R j fun i => st.R j i + change t i }

noncomputable def updateAtom (st : State) (k : Nat) : State :=
  match refit svd m ns Y st k with
  | none => st
  | some v =>
    let supp := support ns st.A k
    let dold := st.D k
    let aold := fun t => st.A (supp.getD t 0) k
    let dk := refitAtom m st k v
    let an := refitCode m st k v
    (List.range supp.length).foldl
      (writeSample k supp an fun t i => dk i * an t - dold i * aold t)
      { st with D := Function.update st.D k dk }

variable (pursuit : Columns → (Nat → ℝ) → Nat → ℝ)

/-- The codes of a dictionary and their product with it. -/
noncomputable def coded (D : Columns) : State :=
  let A := fun j => pursuit D (Y j)
  { D, A, R := product atoms D A }

/-- An iteration before it comes to atom `k`. -/
noncomputable def beforeAtom (D : Columns) (k : Nat) : State :=
  (List.range k).foldl (updateAtom svd m ns Y) (coded atoms Y pursuit D)

/-- The dictionary after `it` iterations. -/
noncomputable def dictionaryAfter (D : Columns) (it : Nat) : Columns :=
  (List.range it).foldl (fun D _ => (beforeAtom svd m atoms ns Y pursuit D atoms).D) D

end Update

section Init

variable (svd : Nat → Nat → GroupCells ℝ → Option (Svd ℝ)) (pursuit : Columns → (Nat → ℝ) → Nat → ℝ)

noncomputable def ksvdLite (D : Columns) (m atoms n : Nat) (patches : Columns) (iters : Int) : Columns :=
  if iters < 1 ∨ n < 2 ∨ atoms < 1 then D
  else dictionaryAfter svd m atoms (samples n) (samplePatch m n patches) pursuit D iters.toNat

/-- From the columns that `fill_dct_atoms` and `fill_patch_atoms` leave. -/
noncomputable def lsscDictInit (columns : Columns) (m atoms n : Nat) (patches : Columns)
    (ksvdIters : Int) : Columns :=
  ksvdLite svd pursuit (fun a => normalizeAtom m (columns a)) m atoms n patches (min (max ksvdIters 0) 8)

end Init

/-! ## Atoms and supports -/

theorem normalizeAtom_unit {m : Nat} (hm : 0 < m) (d : Nat → ℝ) :
    dot m (normalizeAtom m d) (normalizeAtom m d) = 1 := by
  unfold normalizeAtom
  dsimp only
  by_cases htiny : dot m d d < 1e-12
  · rw [if_pos htiny, dot, sum_eq_single 0]
    · simp
    · intro i _ hi
      simp [hi]
    · intro h
      exact absurd (mem_range.mpr hm) h
  · rw [if_neg htiny]
    have hpos : 0 < dot m d d := lt_of_lt_of_le (by norm_num) (not_lt.mp htiny)
    have hscale : (fun i => d i * (1 / √(dot m d d))) = fun i => 1 / √(dot m d d) * d i :=
      funext fun i => mul_comm _ _
    rw [hscale, dot_smul_left, dot_smul_right, ← mul_assoc, ← sq, div_pow, Real.sq_sqrt hpos.le, one_pow,
      one_div_mul_cancel hpos.ne']

theorem normalizeAtom_of_unit {m : Nat} {d : Nat → ℝ} (hd : dot m d d = 1) : normalizeAtom m d = d := by
  unfold normalizeAtom
  dsimp only
  rw [hd, if_neg (by norm_num), Real.sqrt_one]
  funext i
  rw [div_one, mul_one]

section Support

variable {ns k : Nat} {A : Columns}

theorem foldl_first {α : Type} (n : Nat) (P : α → Prop) [DecidablePred P] (l acc : List α) :
    l.foldl (fun supp j => if supp.length < n ∧ P j then supp ++ [j] else supp) acc =
      acc ++ (l.filter fun j => P j).take (n - acc.length) := by
  induction l generalizing acc with
  | nil => simp
  | cons j l ih =>
    rw [List.foldl_cons, ih]
    by_cases hP : P j
    · by_cases hroom : acc.length < n
      · rw [if_pos ⟨hroom, hP⟩, List.filter_cons_of_pos (by simpa using hP), List.length_append,
          List.length_singleton, List.append_assoc]
        have hleft : n - acc.length = n - (acc.length + 1) + 1 := by omega
        rw [hleft, List.take_succ_cons]
        rfl
      · rw [if_neg fun h => hroom h.1]
        simp [Nat.sub_eq_zero_of_le (not_lt.mp hroom)]
    · rw [if_neg fun h => hP h.2, List.filter_cons_of_neg (by simpa using hP)]

theorem support_eq : support ns A k =
    ((List.range ns).filter fun j => 1e-8 < |A j k|).take (min ns kSvdMaxN.toNat) := by
  unfold support
  dsimp only
  rw [foldl_first]
  simp

theorem support_nodup : (support ns A k).Nodup := by
  rw [support_eq]
  exact ((List.nodup_range).filter _).sublist (List.take_sublist _ _)

theorem support_mem {j : Nat} (hj : j ∈ support ns A k) : j < ns ∧ 1e-8 < |A j k| := by
  rw [support_eq] at hj
  simpa using List.mem_of_mem_take hj

end Support

/-! ## One update -/

section Step

variable {svd : Nat → Nat → GroupCells ℝ → Option (Svd ℝ)} {m atoms ns : Nat} {Y : Columns} {st : State}
variable {k : Nat} {v : Svd ℝ}

theorem writeSample_loop {supp : List Nat} (hnodup : supp.Nodup) (an : Nat → ℝ) (change : Nat → Nat → ℝ)
    (st : State) {n : Nat} (hn : n ≤ supp.length) :
    let after := (List.range n).foldl (writeSample k supp an change) st
    after.D = st.D ∧
    (∀ t < n, after.A (supp.getD t 0) = Function.update (st.A (supp.getD t 0)) k (an t) ∧
      after.R (supp.getD t 0) = fun i => st.R (supp.getD t 0) i + change t i) ∧
    ∀ j, (∀ t < n, supp.getD t 0 ≠ j) → after.A j = st.A j ∧ after.R j = st.R j := by
  induction n with
  | zero => exact ⟨rfl, fun t ht => absurd ht (Nat.not_lt_zero t), fun j _ => ⟨rfl, rfl⟩⟩
  | succ n ih =>
    have hfresh : ∀ t < n, supp.getD t 0 ≠ supp.getD n 0 := by
      intro t ht heq
      rw [← List.getElem_eq_getD (h := by omega), ← List.getElem_eq_getD (h := by omega)] at heq
      have := (hnodup.getElem_inj_iff).mp heq
      omega
    obtain ⟨hD, hdone, hrest⟩ := ih (by omega)
    obtain ⟨hA, hR⟩ := hrest _ hfresh
    rw [List.range_succ, List.foldl_append, List.foldl_cons, List.foldl_nil]
    generalize (List.range n).foldl (writeSample k supp an change) st = mid at hD hdone hrest hA hR ⊢
    unfold writeSample
    dsimp only at hD hdone hrest hA hR ⊢
    refine ⟨hD, fun t ht => ?_, fun j hj => ?_⟩
    · by_cases htn : t = n
      · subst htn
        rw [Function.update_self, Function.update_self, hA, hR]
        exact ⟨rfl, rfl⟩
      · have hne := hfresh t (by omega)
        rw [Function.update_of_ne hne, Function.update_of_ne hne]
        exact hdone t (by omega)
    · have hne := (hj n (by omega)).symm
      rw [Function.update_of_ne hne, Function.update_of_ne hne]
      exact hrest j fun t ht => hj t (by omega)

/-- What an update writes. -/
structure Updated (m ns : Nat) (st after : State) (k : Nat) (v : Svd ℝ) : Prop where
  atom : after.D = Function.update st.D k (refitAtom m st k v)
  inside : ∀ t < (support ns st.A k).length, ∀ j, (support ns st.A k).getD t 0 = j →
    after.A j = Function.update (st.A j) k (refitCode m st k v t) ∧
    after.R j = fun i => st.R j i + (refitAtom m st k v i * refitCode m st k v t - st.D k i * st.A j k)
  outside : ∀ j, j ∉ support ns st.A k → after.A j = st.A j ∧ after.R j = st.R j

theorem updateAtom_none (h : refit svd m ns Y st k = none) : updateAtom svd m ns Y st k = st := by
  unfold updateAtom
  rw [h]

theorem updateAtom_some (h : refit svd m ns Y st k = some v) :
    Updated m ns st (updateAtom svd m ns Y st k) k v := by
  unfold updateAtom
  rw [h]
  obtain ⟨hD, hinside, houtside⟩ := writeSample_loop (k := k) (support_nodup (A := st.A) (k := k))
    (refitCode m st k v) (fun t i => refitAtom m st k v i * refitCode m st k v t -
      st.D k i * st.A ((support ns st.A k).getD t 0) k)
    { st with D := Function.update st.D k (refitAtom m st k v) } le_rfl
  refine ⟨hD, ?_, fun j hj => ?_⟩
  · rintro t ht j rfl
    exact hinside t ht
  · refine houtside j fun t ht heq => hj ?_
    rw [← heq, ← List.getElem_eq_getD (h := ht)]
    exact List.getElem_mem ht

/-! ## The fit -/

/-- The column of `R` for a sample is up to date. -/
def State.Exact (atoms : Nat) (st : State) (j : Nat) : Prop := ∀ i, st.R j i = product atoms st.D st.A j i

/-- The squared error of a sample. -/
noncomputable def State.error (m atoms : Nat) (Y : Columns) (st : State) (j : Nat) : ℝ :=
  ∑ i ∈ range m, (Y j i - product atoms st.D st.A j i) ^ 2

/-- `|Y - D A|^2` -/
noncomputable def State.fit (m atoms ns : Nat) (Y : Columns) (st : State) : ℝ :=
  ∑ j ∈ range ns, st.error m atoms Y j

theorem product_update {D A A' : Columns} (hk : k < atoms) (dk : Nat → ℝ) {j : Nat}
    (hA : ∀ l, l ≠ k → A' j l = A j l) (i : Nat) :
    product atoms (Function.update D k dk) A' j i =
      product atoms D A j i + (dk i * A' j k - D k i * A j k) := by
  unfold product
  rw [← add_sum_erase _ _ (mem_range.mpr hk), ← add_sum_erase _ (fun l => D l i * A j l) (mem_range.mpr hk),
    Function.update_self]
  have hrest : ∑ l ∈ (range atoms).erase k, Function.update D k dk l i * A' j l =
      ∑ l ∈ (range atoms).erase k, D l i * A j l := by
    refine sum_congr rfl fun l hl => ?_
    have hne := ne_of_mem_erase hl
    rw [Function.update_of_ne hne, hA l hne]
  rw [hrest]
  ring

section Written

variable {after : State} (hupdated : Updated m ns st after k v)

include hupdated

theorem Updated.code (j : Nat) {l : Nat} (hl : l ≠ k) : after.A j l = st.A j l := by
  by_cases hj : j ∈ support ns st.A k
  · obtain ⟨t, ht, heq⟩ := List.getElem_of_mem hj
    rw [(hupdated.inside t ht j (by rw [← List.getElem_eq_getD (h := ht), heq])).1,
      Function.update_of_ne hl]
  · rw [(hupdated.outside j hj).1]

/-- A column of `R` goes stale only where the atom is used and the sample is not gathered. -/
theorem Updated.exact {j : Nat} (hk : k < atoms) (hexact : st.Exact atoms j)
    (hj : j ∈ support ns st.A k ∨ st.A j k = 0) : after.Exact atoms j := by
  intro i
  rw [hupdated.atom, product_update hk _ (fun l hl => hupdated.code j hl), ← hexact i]
  by_cases hmem : j ∈ support ns st.A k
  · obtain ⟨t, ht, heq⟩ := List.getElem_of_mem hmem
    obtain ⟨hA, hR⟩ := hupdated.inside t ht j (by rw [← List.getElem_eq_getD (h := ht), heq])
    rw [hA, hR, Function.update_self]
  · obtain ⟨hA, hR⟩ := hupdated.outside j hmem
    rw [hA, hR, hj.resolve_left hmem]
    ring

theorem Updated.error_outside {j : Nat} (hk : k < atoms) (hmem : j ∉ support ns st.A k)
    (hj : st.A j k = 0) : after.error m atoms Y j = st.error m atoms Y j := by
  unfold State.error
  refine sum_congr rfl fun i _ => ?_
  rw [hupdated.atom, product_update hk _ (fun l hl => hupdated.code j hl), (hupdated.outside j hmem).1, hj]
  ring_nf

end Written

theorem sum_list {l : List Nat} (hnodup : l.Nodup) (f : Nat → ℝ) :
    ∑ j ∈ l.toFinset, f j = ∑ t ∈ range l.length, f (l.getD t 0) := by
  have himage : l.toFinset = (range l.length).image fun t => l.getD t 0 := by
    ext j
    simp only [List.mem_toFinset, mem_image, mem_range]
    constructor
    · intro hj
      obtain ⟨t, ht, heq⟩ := List.getElem_of_mem hj
      exact ⟨t, ht, by rw [← List.getElem_eq_getD (h := ht), heq]⟩
    · rintro ⟨t, ht, rfl⟩
      rw [← List.getElem_eq_getD (h := ht)]
      exact List.getElem_mem ht
  rw [himage, sum_image]
  intro t ht t' ht' heq
  have ht := mem_range.mp ht
  have ht' := mem_range.mp ht'
  dsimp only at heq
  rw [← List.getElem_eq_getD (h := ht), ← List.getElem_eq_getD (h := ht')] at heq
  exact (hnodup.getElem_inj_iff).mp heq

theorem decomposes_of_economy {n : Nat} {E : GroupCells ℝ} (h : IsEconomySvd m n E v) :
    Decomposes m n (min m n) E (fun r i => v.U i r) v.S v.Vt where
  entry := h.product
  left := h.columns
  right := h.rows
  nonneg := h.nonneg
  first := by
    intro r
    induction r with
    | zero => exact fun _ => le_rfl
    | succ r ih => exact fun hr => (h.antitone r hr).trans (ih (by omega))

theorem refitAtom_eq {n : Nat} {E : GroupCells ℝ} (h : IsEconomySvd m n E v) (hp : 0 < min m n) :
    refitAtom m st k v = fun i => refitSign m st k v * v.U i 0 := by
  apply normalizeAtom_of_unit
  have hunit : dot m (fun i => v.U i 0) (fun i => v.U i 0) = 1 := h.columns 0 hp 0 hp
  rw [dot_smul_left, dot_smul_right, hunit]
  unfold refitSign
  split <;> norm_num

/-- The new term is the first one of the decomposition. -/
theorem refit_term {n : Nat} {E : GroupCells ℝ} (h : IsEconomySvd m n E v) (hp : 0 < min m n) (i t : Nat) :
    refitAtom m st k v i * refitCode m st k v t = v.U i 0 * (v.S 0 * v.Vt 0 t) := by
  rw [refitAtom_eq h hp]
  unfold refitCode refitSign
  split <;> ring

theorem refit_some (hsvd : ∀ m n E v, svd m n E = some v → IsEconomySvd m n E v)
    (h : refit svd m ns Y st k = some v) : 0 < (support ns st.A k).length ∧
      IsEconomySvd m (support ns st.A k).length (gathered ns Y st k) v := by
  unfold refit at h
  dsimp only at h
  by_cases hnone : (support ns st.A k).length < 1
  · rw [if_pos hnone] at h
    exact absurd h (by simp)
  · rw [if_neg hnone] at h
    by_cases hlarge : kSvdMaxM < m ∨ kSvdMaxN < (support ns st.A k).length
    · rw [if_pos hlarge] at h
      exact absurd h (by simp)
    · rw [if_neg hlarge] at h
      exact ⟨by omega, hsvd _ _ _ _ h⟩

/-- The gathered samples fit no worse than before, where their columns of `R` are up to date. -/
theorem Updated.fit_le {after : State} (hupdated : Updated m ns st after k v) (hm : 0 < m) (hk : k < atoms)
    (hn : 0 < (support ns st.A k).length)
    (hsvd : IsEconomySvd m (support ns st.A k).length (gathered ns Y st k) v)
    (hexact : ∀ j ∈ support ns st.A k, st.Exact atoms j)
    (hothers : ∀ j < ns, j ∉ support ns st.A k → st.A j k = 0) :
    after.fit m atoms ns Y ≤ st.fit m atoms ns Y := by
  have hsub : (support ns st.A k).toFinset ⊆ range ns := by
    intro j hj
    exact mem_range.mpr (support_mem (List.mem_toFinset.mp hj)).1
  have hp : 0 < min m (support ns st.A k).length := by omega
  have hbefore : ∑ j ∈ (support ns st.A k).toFinset, st.error m atoms Y j =
      distance m (support ns st.A k).length (gathered ns Y st k) (st.D k)
        fun t => st.A ((support ns st.A k).getD t 0) k := by
    rw [sum_list support_nodup, distance]
    refine sum_congr rfl fun t ht => sum_congr rfl fun i _ => ?_
    have hmem : (support ns st.A k).getD t 0 ∈ support ns st.A k := by
      rw [← List.getElem_eq_getD (h := mem_range.mp ht)]
      exact List.getElem_mem _
    rw [← hexact _ hmem i]
    unfold gathered
    ring
  have hafter : ∑ j ∈ (support ns st.A k).toFinset, after.error m atoms Y j =
      distance m (support ns st.A k).length (gathered ns Y st k) (fun i => v.U i 0)
        fun t => v.S 0 * v.Vt 0 t := by
    rw [sum_list support_nodup, distance]
    refine sum_congr rfl fun t ht => sum_congr rfl fun i _ => ?_
    have hmem : (support ns st.A k).getD t 0 ∈ support ns st.A k := by
      rw [← List.getElem_eq_getD (h := mem_range.mp ht)]
      exact List.getElem_mem _
    have hcolumn := hupdated.exact hk (hexact _ hmem) (.inl hmem) i
    rw [← hcolumn, (hupdated.inside t (mem_range.mp ht) _ rfl).2]
    dsimp only
    rw [refit_term hsvd hp]
    unfold gathered
    ring
  have hbest := (decomposes_of_economy hsvd).rank_one_best hp (st.D k)
    fun t => st.A ((support ns st.A k).getD t 0) k
  unfold State.fit
  rw [← sum_sdiff hsub, ← sum_sdiff (f := st.error m atoms Y) hsub, hbefore, hafter]
  refine add_le_add (le_of_eq (sum_congr rfl fun j hj => ?_)) hbest
  obtain ⟨hj, hmem⟩ := mem_sdiff.mp hj
  rw [List.mem_toFinset] at hmem
  exact hupdated.error_outside hk hmem (hothers j (mem_range.mp hj) hmem)

end Step

/-! ## Iterations -/

section Run

variable {svd : Nat → Nat → GroupCells ℝ → Option (Svd ℝ)} {m atoms ns : Nat} {Y : Columns}
variable {pursuit : Columns → (Nat → ℝ) → Nat → ℝ} {D : Columns}

/-- An update of atom `k` passes a sample over that uses the atom. -/
def Passed (svd : Nat → Nat → GroupCells ℝ → Option (Svd ℝ)) (m ns : Nat) (Y : Columns) (st : State)
    (k j : Nat) : Prop :=
  (refit svd m ns Y st k).isSome ∧ 1e-8 < |st.A j k| ∧ j ∉ support ns st.A k

theorem not_passed_of_few {st : State} {k j : Nat} (hj : j < ns)
    (hfew : ((List.range ns).filter fun j => 1e-8 < |st.A j k|).length ≤ min ns kSvdMaxN.toNat) :
    ¬ Passed svd m ns Y st k j := by
  rintro ⟨-, hused, hmem⟩
  rw [support_eq, List.take_of_length_le hfew] at hmem
  exact hmem (by simpa using ⟨hj, hused⟩)

theorem beforeAtom_succ (k : Nat) : beforeAtom svd m atoms ns Y pursuit D (k + 1) =
    updateAtom svd m ns Y (beforeAtom svd m atoms ns Y pursuit D k) k := by
  unfold beforeAtom
  rw [List.range_succ, List.foldl_append]
  rfl

/-- An update leaves everything as it is, or it refits the atom. -/
theorem updateAtom_cases (svd : Nat → Nat → GroupCells ℝ → Option (Svd ℝ)) (m ns : Nat) (Y : Columns)
    (st : State) (k : Nat) :
    updateAtom svd m ns Y st k = st ∨ ∃ v, refit svd m ns Y st k = some v ∧
      Updated m ns st (updateAtom svd m ns Y st k) k v := by
  cases h : refit svd m ns Y st k with
  | none => exact .inl (updateAtom_none h)
  | some v => exact .inr ⟨v, rfl, updateAtom_some h⟩

theorem updateAtom_code (st : State) (k j : Nat) {l : Nat} (hl : l ≠ k) :
    (updateAtom svd m ns Y st k).A j l = st.A j l := by
  rcases updateAtom_cases svd m ns Y st k with hsame | ⟨v, -, hupdated⟩
  · rw [hsame]
  · exact hupdated.code j hl

theorem updateAtom_zero {st : State} {k j l : Nat} (hzero : st.A j l = 0) :
    (updateAtom svd m ns Y st k).A j l = 0 := by
  rcases updateAtom_cases svd m ns Y st k with hsame | ⟨v, -, hupdated⟩
  · rw [hsame, hzero]
  · by_cases hl : l = k
    · subst hl
      have hmem : j ∉ support ns st.A l := by
        intro hmem
        have hused := (support_mem hmem).2
        rw [hzero, abs_zero] at hused
        exact absurd hused (by norm_num)
      rw [(hupdated.outside j hmem).1, hzero]
    · rw [hupdated.code j hl, hzero]

theorem updateAtom_unit (hm : 0 < m) {st : State} {k : Nat} (h : ∀ a, dot m (st.D a) (st.D a) = 1) (a : Nat) :
    dot m ((updateAtom svd m ns Y st k).D a) ((updateAtom svd m ns Y st k).D a) = 1 := by
  rcases updateAtom_cases svd m ns Y st k with hsame | ⟨v, -, hupdated⟩
  · rw [hsame]
    exact h a
  · rw [hupdated.atom]
    by_cases ha : a = k
    · rw [ha, Function.update_self]
      exact normalizeAtom_unit hm _
    · rw [Function.update_of_ne ha]
      exact h a

/-- An atom's codes are the pursuit's until its own update. -/
theorem beforeAtom_code (j : Nat) {k l : Nat} (hl : k ≤ l) :
    (beforeAtom svd m atoms ns Y pursuit D k).A j l = pursuit D (Y j) l := by
  induction k with
  | zero => rfl
  | succ k ih => rw [beforeAtom_succ, updateAtom_code _ _ _ (by omega), ih (by omega)]

theorem beforeAtom_unit (hm : 0 < m) (h : ∀ a, dot m (D a) (D a) = 1) (k a : Nat) :
    dot m ((beforeAtom svd m atoms ns Y pursuit D k).D a)
      ((beforeAtom svd m atoms ns Y pursuit D k).D a) = 1 := by
  induction k generalizing a with
  | zero => exact h a
  | succ k ih =>
    rw [beforeAtom_succ]
    exact updateAtom_unit hm ih a

theorem dictionaryAfter_unit (hm : 0 < m) (h : ∀ a, dot m (D a) (D a) = 1) (it a : Nat) :
    dot m (dictionaryAfter svd m atoms ns Y pursuit D it a)
      (dictionaryAfter svd m atoms ns Y pursuit D it a) = 1 := by
  induction it generalizing a with
  | zero => exact h a
  | succ it ih =>
    unfold dictionaryAfter at ih ⊢
    rw [List.range_succ, List.foldl_append]
    exact beforeAtom_unit hm ih atoms a

section Codes

variable (hcodes : ∀ j < ns, ∀ k < atoms, |pursuit D (Y j) k| ≤ 1e-8 → pursuit D (Y j) k = 0)

include hcodes

theorem gathered_or_unused {j k : Nat} {v : Svd ℝ} (hj : j < ns) (hk : k < atoms)
    (hrefit : refit svd m ns Y (beforeAtom svd m atoms ns Y pursuit D k) k = some v)
    (hpassed : ¬ Passed svd m ns Y (beforeAtom svd m atoms ns Y pursuit D k) k j) :
    j ∈ support ns (beforeAtom svd m atoms ns Y pursuit D k).A k ∨
      (beforeAtom svd m atoms ns Y pursuit D k).A j k = 0 := by
  by_cases hmem : j ∈ support ns (beforeAtom svd m atoms ns Y pursuit D k).A k
  · exact .inl hmem
  · have hsmall : ¬ 1e-8 < |(beforeAtom svd m atoms ns Y pursuit D k).A j k| :=
      fun hused => hpassed ⟨by rw [hrefit]; rfl, hused, hmem⟩
    rw [beforeAtom_code j le_rfl] at hsmall ⊢
    exact .inr (hcodes j hj k hk (not_lt.mp hsmall))

theorem beforeAtom_exact {j k : Nat} (hj : j < ns) (hk : k ≤ atoms)
    (hpassed : ∀ k' < k, ¬ Passed svd m ns Y (beforeAtom svd m atoms ns Y pursuit D k') k' j) :
    (beforeAtom svd m atoms ns Y pursuit D k).Exact atoms j := by
  induction k with
  | zero => exact fun i => rfl
  | succ k ih =>
    have hexact := ih (by omega) fun k' hk' => hpassed k' (by omega)
    rw [beforeAtom_succ]
    rcases updateAtom_cases svd m ns Y
      (beforeAtom svd m atoms ns Y pursuit D k) k with hsame | ⟨v, hrefit, hupdated⟩
    · rwa [hsame]
    · exact hupdated.exact (by omega) hexact
        (gathered_or_unused hcodes hj (by omega) hrefit (hpassed k (by omega)))

theorem beforeAtom_fit_le (hm : 0 < m) (hsvd : ∀ m n E v, svd m n E = some v → IsEconomySvd m n E v)
    {k : Nat} (hk : k < atoms)
    (hnone : ∀ j < ns, ¬ Passed svd m ns Y (beforeAtom svd m atoms ns Y pursuit D k) k j)
    (hearlier : ∀ j ∈ support ns (beforeAtom svd m atoms ns Y pursuit D k).A k, ∀ k' < k,
      ¬ Passed svd m ns Y (beforeAtom svd m atoms ns Y pursuit D k') k' j) :
    (beforeAtom svd m atoms ns Y pursuit D (k + 1)).fit m atoms ns Y ≤
      (beforeAtom svd m atoms ns Y pursuit D k).fit m atoms ns Y := by
  rw [beforeAtom_succ]
  rcases updateAtom_cases svd m ns Y
    (beforeAtom svd m atoms ns Y pursuit D k) k with hsame | ⟨v, hrefit, hupdated⟩
  · rw [hsame]
  · obtain ⟨hn, heconomy⟩ := refit_some hsvd hrefit
    refine hupdated.fit_le hm hk hn heconomy
      (fun j hj => beforeAtom_exact hcodes (support_mem hj).1 hk.le (hearlier j hj)) fun j hj hmem => ?_
    exact (gathered_or_unused hcodes hj hk hrefit (hnone j hj)).resolve_left hmem

end Codes

/-- Every update keeps the atom's norm and its support, and `R` for the samples that were not
passed over; the fit gets no worse where none was. -/
theorem ksvd_update {n iters : Nat} {patches columns : Columns} (hm : 0 < m)
    (hsvd : ∀ m n E v, svd m n E = some v → IsEconomySvd m n E v) :
    let ns := samples n
    let Y := samplePatch m n patches
    let D := dictionaryAfter svd m atoms ns Y pursuit fun a => normalizeAtom m (columns a)
    let st := fun it => beforeAtom svd m atoms ns Y pursuit (D it)
    let passed := fun it k j => Passed svd m ns Y (st it k) k j
    (∀ it < iters, ∀ j < ns, ∀ k < atoms, |pursuit (D it) (Y j) k| ≤ 1e-8 → pursuit (D it) (Y j) k = 0) →
    ∀ it < iters, ∀ k < atoms,
      dot m ((st it (k + 1)).D k) ((st it (k + 1)).D k) = 1 ∧
      (∀ j l, (st it k).A j l = 0 → (st it (k + 1)).A j l = 0) ∧
      (∀ j < ns, (∀ k' ≤ k, ¬ passed it k' j) → ∀ i,
        (st it (k + 1)).R j i = product atoms (st it (k + 1)).D (st it (k + 1)).A j i) ∧
      ((∀ j < ns, ¬ passed it k j) → (∀ j ∈ support ns (st it k).A k, ∀ k' < k, ¬ passed it k' j) →
        (st it (k + 1)).fit m atoms ns Y ≤ (st it k).fit m atoms ns Y) ∧
      (((List.range ns).filter fun j => 1e-8 < |(st it k).A j k|).length ≤ min ns kSvdMaxN.toNat →
        ∀ j < ns, ¬ passed it k j) := by
  intro ns Y D st passed hcodes it hit k hk
  have hcodes := hcodes it hit
  refine ⟨?_, ?_, ?_, ?_, ?_⟩
  · have hunit : ∀ a, dot m (D it a) (D it a) = 1 :=
      dictionaryAfter_unit hm (fun a => normalizeAtom_unit hm (columns a)) it
    exact beforeAtom_unit hm hunit (k + 1) k
  · intro j l hzero
    dsimp only [st]
    rw [beforeAtom_succ]
    exact updateAtom_zero hzero
  · intro j hj hpassed
    exact beforeAtom_exact hcodes hj hk fun k' hk' => hpassed k' (by omega)
  · intro hnone hearlier
    exact beforeAtom_fit_le hcodes hm hsvd hk hnone hearlier
  · intro hfew j hj
    exact not_passed_of_few hj hfew

/-! ### A sample that is passed over -/

theorem solveCholesky_one {gram : Columns} (h : gram 0 0 = 1) (rhs : Nat → ℝ) :
    solveCholesky 1 gram rhs 0 = rhs 0 := by
  have hmax : max (1 : ℝ) 1e-12 = 1 := max_eq_left (by norm_num)
  simp [solveCholesky, choleskyFactor, h, hmax]

theorem largest_two {D : Columns} {residual : Nat → ℝ} {used : List Nat} (h : dot m (D 0) residual = 0) :
    largest m 2 D residual used = if 1 ∈ used ∨ dot m (D 1) residual = 0 then (none, 0)
      else (some 1, |dot m (D 1) residual|) := by
  unfold largest
  have hrange : List.range 2 = [0, 1] := rfl
  rw [hrange, List.foldl_cons, List.foldl_cons, List.foldl_nil, h, abs_zero]
  by_cases h₁ : 1 ∈ used <;> by_cases h₂ : dot m (D 1) residual = 0 <;> simp [h₁, h₂]

/-- The pursuit with two orthonormal atoms where the patch has nothing of the first. -/
theorem lsscOmp_two {y : Nat → ℝ} {c : ℝ} (h : OrthonormalFirst m 2 D) (h₀ : dot m (D 0) y = 0)
    (h₁ : dot m (D 1) y = c) (hc : 1 ≤ c) : lsscOmp m 2 D 8 y = fun k => if k = 1 then c else 0 := by
  have hunit : dot m (D 1) (D 1) = 1 := h 1 (by decide) 1 (by decide)
  have hrest : dot m (D 0) (fun row => y row - c * D 1 row) = 0 := by
    have horthogonal : dot m (D 0) (D 1) = 0 := h 0 (by decide) 1 (by decide)
    have hsub : dot m (D 0) (fun row => y row - c * D 1 row) = dot m (D 0) y - c * dot m (D 0) (D 1) := by
      unfold dot
      rw [mul_sum, ← sum_sub_distrib]
      exact sum_congr rfl fun i _ => by ring
    rw [hsub, h₀, horthogonal, mul_zero, sub_zero]
  have hfirst : largest m 2 D y [] = (some 1, c) := by
    rw [largest_two h₀, if_neg, h₁, abs_of_nonneg (by linarith)]
    rw [h₁]
    simp only [List.not_mem_nil, false_or]
    linarith
  have hsolve : solveCholesky 1 (fun p q => dot m (D ([1].getD p 0)) (D ([1].getD q 0)))
      (fun p => dot m (D ([1].getD p 0)) y) 0 = c := by
    rw [solveCholesky_one hunit]
    exact h₁
  have hcodes : (fun k => if k = 1 then c else 0) = Function.update (fun _ => (0 : ℝ)) 1 c := by
    funext k
    by_cases hk : k = 1 <;> simp [hk]
  have hmin : min 8 (min 2 8) = 2 := rfl
  unfold lsscOmp
  rw [hmin, ompFrom, hfirst, hcodes]
  dsimp only
  rw [if_neg (by norm_num; linarith)]
  simp only [List.nil_append, List.length_singleton, List.range_one, List.map_cons, List.map_nil,
    range_one, sum_singleton, hsolve, Lines.storeAll, List.foldl_cons, List.foldl_nil,
    List.getD_cons_zero]
  -- no second atom is found
  have hsecond : largest m 2 D (fun row => y row - c * D 1 row) [1] = (none, 0) := by
    rw [largest_two hrest, if_pos (.inl (List.mem_singleton_self 1))]
  rw [ompFrom, hsecond]
  exact ite_self _

end Run

/-- The first four DCT atoms of blocks of two by two pixels, by column. -/
def dctAtom (a i : Nat) : ℚ :=
  match a with
  | 0 => 1 / 2
  | 1 => if i % 2 = 0 then 1 / 2 else -1 / 2
  | 2 => if i < 2 then 1 / 2 else -1 / 2
  | _ => if i = 0 ∨ i = 3 then 1 / 2 else -1 / 2

/-- How much of atom 1 a patch has. -/
def amount (j : Nat) : ℚ := if j < 28 then 1 else if j < 32 then 3 else 10

/-- 32 patches of one direction near atom 1, then one of the atom itself. -/
def nearPatch (j i : Nat) : ℚ :=
  if j < 32 then amount j * (dctAtom 1 i + 3 / 4 * dctAtom 2 i) else amount j * dctAtom 1 i

/-- Orthonormal columns, the first one along the 32 patches. -/
def nearU (a i : Nat) : ℚ :=
  match a with
  | 0 => 4 / 5 * dctAtom 1 i + 3 / 5 * dctAtom 2 i
  | 1 => -3 / 5 * dctAtom 1 i + 4 / 5 * dctAtom 2 i
  | 2 => dctAtom 0 i
  | _ => dctAtom 3 i

/-- Orthonormal rows, the first one with the amounts. -/
def nearVt (a t : Nat) : ℚ :=
  if a = 0 then amount t / 8
  else if t / 4 + 1 = a then if t % 2 = 0 then 1 / 2 else -1 / 2
  else 0

/-- A decomposition of the 32 patches. -/
noncomputable def nearSvd : Svd ℝ where
  U row col := nearU col row
  S k := if k = 0 then 10 else 0
  Vt row col := nearVt row col

theorem orthonormalFirst_cast {n p : Nat} {q : Nat → Nat → ℚ}
    (h : ∀ a < p, ∀ b < p, ∑ i ∈ range n, q a i * q b i = if a = b then 1 else 0) :
    OrthonormalFirst n p fun a i => (q a i : ℝ) := by
  intro a ha b hb
  have hcast := congrArg (Rat.cast : ℚ → ℝ) (h a ha b hb)
  push_cast at hcast
  exact hcast.trans (by split <;> simp)

theorem nearSvd_economy {E : GroupCells ℝ} (h : ∀ i < 4, ∀ t < 32, E i t = nearPatch t i) :
    IsEconomySvd 4 32 E nearSvd where
  product := by
    intro i hi t ht
    have hrank : nearPatch t i = nearU 0 i * 10 * nearVt 0 t := by
      simp only [nearPatch, if_pos ht, nearU, nearVt, if_pos]
      ring
    rw [h i hi t ht, hrank, sum_eq_single 0]
    · simp [nearSvd]
    · intro r _ hr
      simp [nearSvd, hr]
    · simp
  columns := orthonormalFirst_cast (by with_unfolding_all decide)
  rows := orthonormalFirst_cast (by set_option maxRecDepth 100000 in with_unfolding_all decide)
  nonneg := by
    intro k _
    simp only [nearSvd]
    split <;> norm_num
  antitone := by
    intro k _
    simp only [nearSvd, Nat.succ_ne_zero, if_false]
    split <;> norm_num

open Classical in
/-- An SVD that fails on every other matrix. -/
noncomputable def nearDecomposition (m n : Nat) (E : GroupCells ℝ) : Option (Svd ℝ) :=
  if m = 4 ∧ n = 32 ∧ ∀ i < 4, ∀ t < 32, E i t = nearPatch t i then some nearSvd else none

theorem nearDecomposition_exact (m n : Nat) (E : GroupCells ℝ) (v : Svd ℝ)
    (h : nearDecomposition m n E = some v) : IsEconomySvd m n E v := by
  unfold nearDecomposition at h
  by_cases hnear : m = 4 ∧ n = 32 ∧ ∀ i < 4, ∀ t < 32, E i t = nearPatch t i
  · rw [if_pos hnear] at h
    obtain ⟨rfl, rfl, hentries⟩ := hnear
    cases h
    exact nearSvd_economy hentries
  · rw [if_neg hnear] at h
    exact absurd h (by simp)

noncomputable def nearColumns : Columns := fun a i => dctAtom a i

noncomputable def nearPatches : Columns := fun j i => nearPatch j i

noncomputable def nearPursuit (D : Columns) (y : Nat → ℝ) : Nat → ℝ := lsscOmp 4 2 D 8 y

/-- The run before it comes to atom `k`. -/
noncomputable def nearRun : Nat → State :=
  beforeAtom nearDecomposition 4 2 33 (samplePatch 4 33 nearPatches) nearPursuit
    fun a => normalizeAtom 4 (nearColumns a)

theorem nearColumns_normal : (fun a => normalizeAtom 4 (nearColumns a)) = nearColumns := by
  have horthonormal : OrthonormalFirst 4 4 nearColumns := orthonormalFirst_cast (by with_unfolding_all decide)
  funext a
  apply normalizeAtom_of_unit
  by_cases ha : a < 3
  · exact (horthonormal a (by omega) a (by omega)).trans (if_pos rfl)
  · have hlast : nearColumns a = nearColumns 3 := by
      obtain ⟨b, rfl⟩ := Nat.exists_eq_add_of_le (Nat.le_of_not_lt ha)
      rw [Nat.add_comm]
      rfl
    rw [hlast]
    exact (horthonormal 3 (by decide) 3 (by decide)).trans (if_pos rfl)

theorem nearPatches_sample {j : Nat} (hj : j < 33) : samplePatch 4 33 nearPatches j = nearPatches j := by
  have hsrc : j * 33 / samples 33 = j := Nat.mul_div_cancel j (by decide)
  have hmean : ∀ j < 33, ∑ i ∈ range 4, nearPatch j i = 0 := by with_unfolding_all decide
  have hzero : ∑ i ∈ range 4, nearPatches j i = 0 := by
    have hcast := congrArg (Rat.cast : ℚ → ℝ) (hmean j hj)
    push_cast at hcast
    exact hcast
  unfold samplePatch
  rw [hsrc]
  dsimp only
  rw [hzero, zero_div]
  simp only [sub_zero]

theorem nearPursuit_eq {j : Nat} (hj : j < 33) :
    nearPursuit nearColumns (samplePatch 4 33 nearPatches j) = fun k => if k = 1 then (amount j : ℝ) else 0 := by
  have hflat : ∀ j < 33, ∑ i ∈ range 4, dctAtom 0 i * nearPatch j i = 0 := by with_unfolding_all decide
  have hamount : ∀ j < 33, ∑ i ∈ range 4, dctAtom 1 i * nearPatch j i = amount j := by with_unfolding_all decide
  have hleast : ∀ j < 33, 1 ≤ amount j := by with_unfolding_all decide
  rw [nearPatches_sample hj]
  refine lsscOmp_two (orthonormalFirst_cast (by with_unfolding_all decide)) ?_ ?_ ?_
  · have hcast := congrArg (Rat.cast : ℚ → ℝ) (hflat j hj)
    push_cast at hcast
    exact hcast
  · have hcast := congrArg (Rat.cast : ℚ → ℝ) (hamount j hj)
    push_cast at hcast
    exact hcast
  · exact_mod_cast hleast j hj

theorem nearRun_zero_code {j : Nat} (hj : j < 33) :
    (nearRun 0).A j = fun k => if k = 1 then (amount j : ℝ) else 0 := by
  have hA : (nearRun 0).A j = nearPursuit (fun a => normalizeAtom 4 (nearColumns a))
    (samplePatch 4 33 nearPatches j) := rfl
  rw [hA, nearColumns_normal, nearPursuit_eq hj]

theorem nearRun_one : nearRun 1 = nearRun 0 := by
  have hnone : support 33 (nearRun 0).A 0 = [] := by
    rw [List.eq_nil_iff_forall_not_mem]
    intro j hj
    obtain ⟨hj, hused⟩ := support_mem hj
    rw [nearRun_zero_code hj] at hused
    norm_num at hused
  unfold nearRun at hnone ⊢
  rw [beforeAtom_succ]
  apply updateAtom_none
  unfold refit
  rw [hnone]
  rfl

theorem nearRun_used {j : Nat} (hj : j < 33) : 1e-8 < |(nearRun 0).A j 1| := by
  have hleast : ∀ j < 33, 1 ≤ amount j := by with_unfolding_all decide
  have hreal : (1 : ℝ) ≤ amount j := by exact_mod_cast hleast j hj
  rw [nearRun_zero_code hj]
  dsimp only
  rw [if_pos rfl, abs_of_nonneg (by linarith)]
  norm_num
  linarith

theorem nearRun_codes : ∀ j < 33, ∀ k < 2, (nearRun 0).A j k = 0 ∨ 1e-8 < |(nearRun 0).A j k| := by
  intro j hj k hk
  by_cases hone : k = 1
  · rw [hone]
    exact .inr (nearRun_used hj)
  · rw [nearRun_zero_code hj]
    exact .inl (if_neg hone)

theorem nearRun_support : support 33 (nearRun 0).A 1 = List.range 32 := by
  have hall : ((List.range 33).filter fun j => 1e-8 < |(nearRun 0).A j 1|) = List.range 33 := by
    rw [List.filter_eq_self]
    intro j hj
    exact decide_eq_true (nearRun_used (List.mem_range.mp hj))
  rw [support_eq, hall, List.take_range]
  rfl

theorem nearRun_zero_product {j : Nat} (hj : j < 33) (i : Nat) :
    (nearRun 0).R j i = (dctAtom 1 i * amount j : ℚ) ∧
      product 2 (nearRun 0).D (nearRun 0).A j i = (dctAtom 1 i * amount j : ℚ) := by
  have hD : (nearRun 0).D = nearColumns := nearColumns_normal
  have hproduct : product 2 (nearRun 0).D (nearRun 0).A j i = (dctAtom 1 i * amount j : ℚ) := by
    rw [hD, product, sum_range_succ, sum_range_one, nearRun_zero_code hj]
    simp [nearColumns]
  exact ⟨hproduct, hproduct⟩

theorem nearRun_gathered {i t : Nat} (ht : t < 32) :
    gathered 33 (samplePatch 4 33 nearPatches) (nearRun 0) 1 i t = nearPatch t i := by
  have hD : (nearRun 0).D = nearColumns := nearColumns_normal
  have hj : (List.range 32).getD t 0 = t := by
    rw [← List.getElem_eq_getD (h := by simpa using ht), List.getElem_range]
  unfold gathered
  rw [nearRun_support, hj]
  dsimp only
  rw [nearPatches_sample (by omega), (nearRun_zero_product (by omega) i).1, hD, nearRun_zero_code (by omega)]
  simp [nearPatches, nearColumns]

theorem nearRun_refit :
    refit nearDecomposition 4 33 (samplePatch 4 33 nearPatches) (nearRun 0) 1 = some nearSvd := by
  unfold refit
  rw [nearRun_support, List.length_range]
  dsimp only
  rw [if_neg (by decide), if_neg (by decide), nearDecomposition, if_pos]
  exact ⟨rfl, rfl, fun i _ t ht => nearRun_gathered ht⟩

theorem nearRun_two : Updated 4 33 (nearRun 0) (nearRun 2) 1 nearSvd := by
  have hstep : nearRun 2 =
      updateAtom nearDecomposition 4 33 (samplePatch 4 33 nearPatches) (nearRun 1) 1 := beforeAtom_succ 1
  rw [hstep, nearRun_one]
  exact updateAtom_some nearRun_refit

theorem nearRun_atom (i : Nat) : refitAtom 4 (nearRun 0) 1 nearSvd i = nearU 0 i ∧
    ∀ t, refitCode 4 (nearRun 0) 1 nearSvd t = (10 * nearVt 0 t : ℚ) := by
  have hD : (nearRun 0).D = nearColumns := nearColumns_normal
  have hdot : ∑ i ∈ range 4, dctAtom 1 i * nearU 0 i = 4 / 5 := by with_unfolding_all decide
  have hsign : refitSign 4 (nearRun 0) 1 nearSvd = 1 := by
    have hcast := congrArg (Rat.cast : ℚ → ℝ) hdot
    push_cast at hcast
    unfold refitSign dot
    rw [hD, if_neg]
    have hpos : (0 : ℝ) ≤ ∑ i ∈ range 4, nearColumns 1 i * nearSvd.U i 0 := by
      refine le_of_le_of_eq ?_ hcast.symm
      norm_num
    exact not_lt.mpr hpos
  constructor
  · rw [refitAtom_eq (nearSvd_economy fun i _ t _ => rfl) (by decide), hsign]
    dsimp only
    rw [one_mul]
    rfl
  · intro t
    unfold refitCode
    rw [hsign]
    simp [nearSvd]

/-- What the new dictionary and the new codes come to. -/
def nearProduct (j i : Nat) : ℚ := nearU 0 i * if j < 32 then 10 * nearVt 0 j else 10

theorem nearRun_two_product {j : Nat} (hj : j < 33) (i : Nat) :
    product 2 (nearRun 2).D (nearRun 2).A j i = nearProduct j i := by
  have hother : (nearRun 2).A j 0 = 0 := by
    rw [nearRun_two.code j (by decide), nearRun_zero_code hj]
    rfl
  have hcode : (nearRun 2).A j 1 = (if j < 32 then 10 * nearVt 0 j else 10 : ℚ) := by
    by_cases hmem : j < 32
    · have hinside := nearRun_two.inside j (by rw [nearRun_support]; simpa using hmem) j (by
        rw [nearRun_support, ← List.getElem_eq_getD (h := by simpa using hmem), List.getElem_range])
      rw [hinside.1, Function.update_self, (nearRun_atom 0).2, if_pos hmem]
    · have hlast : j = 32 := by omega
      subst hlast
      have houtside := nearRun_two.outside 32 (by rw [nearRun_support]; simp)
      rw [houtside.1, nearRun_zero_code hj]
      simp [amount]
  have hatom : (nearRun 2).D 1 i = nearU 0 i := by
    rw [nearRun_two.atom, Function.update_self, (nearRun_atom i).1]
  rw [product, sum_range_succ, sum_range_one, hother, hcode, hatom, nearProduct]
  push_cast
  ring

theorem nearFit {st : State} {q : Nat → Nat → ℚ} {e : ℚ}
    (h : ∀ j < 33, ∀ i, product 2 st.D st.A j i = q j i)
    (he : ∑ j ∈ range 33, ∑ i ∈ range 4, (nearPatch j i - q j i) ^ 2 = e) :
    st.fit 4 2 33 (samplePatch 4 33 nearPatches) = e := by
  have hcast := congrArg (Rat.cast : ℚ → ℝ) he
  push_cast at hcast
  rw [← hcast]
  refine sum_congr rfl fun j hj => sum_congr rfl fun i _ => ?_
  have hj := mem_range.mp hj
  rw [h j hj i, nearPatches_sample hj]
  rfl

/-- A sample that is passed over keeps its column of `R` although its product has changed, and
fits worse by more than the others gain. -/
theorem ksvd_passed_over :
    (∀ m n E v, nearDecomposition m n E = some v → IsEconomySvd m n E v) ∧
    (∀ j < 33, ∀ k < 2, (nearRun 0).A j k = 0 ∨ 1e-8 < |(nearRun 0).A j k|) ∧
    (nearRun 2).R 32 0 ≠ product 2 (nearRun 2).D (nearRun 2).A 32 0 ∧
    (nearRun 1).fit 4 2 33 (samplePatch 4 33 nearPatches) <
      (nearRun 2).fit 4 2 33 (samplePatch 4 33 nearPatches) := by
  refine ⟨nearDecomposition_exact, nearRun_codes, ?_, ?_⟩
  · have houtside := nearRun_two.outside 32 (by rw [nearRun_support]; simp)
    rw [houtside.2, (nearRun_zero_product (by decide) 0).1, nearRun_two_product (by decide)]
    have hne : dctAtom 1 0 * amount 32 ≠ nearProduct 32 0 := by with_unfolding_all decide
    exact_mod_cast hne
  · rw [nearRun_one, nearFit (e := 36) (fun j hj i => (nearRun_zero_product hj i).2) (by set_option maxRecDepth 100000 in with_unfolding_all decide),
      nearFit (e := 40) (fun j hj i => nearRun_two_product hj i) (by set_option maxRecDepth 100000 in with_unfolding_all decide)]
    norm_num

/-- A sample that is gathered keeps its column of `R` up to date. -/
theorem ksvd_update_near :
    dot 4 ((nearRun 2).D 1) ((nearRun 2).D 1) = 1 ∧
      ∀ i, (nearRun 2).R 0 i = product 2 (nearRun 2).D (nearRun 2).A 0 i := by
  have hcodes : ∀ it < 1, ∀ j < 33, ∀ k < 2,
      |nearPursuit (dictionaryAfter nearDecomposition 4 2 33 (samplePatch 4 33 nearPatches) nearPursuit
          (fun a => normalizeAtom 4 (nearColumns a)) it) (samplePatch 4 33 nearPatches j) k| ≤ 1e-8 →
        nearPursuit (dictionaryAfter nearDecomposition 4 2 33 (samplePatch 4 33 nearPatches) nearPursuit
          (fun a => normalizeAtom 4 (nearColumns a)) it) (samplePatch 4 33 nearPatches j) k = 0 := by
    intro it hit j hj k hk hsmall
    obtain rfl : it = 0 := by omega
    rcases nearRun_codes j hj k hk with hzero | hused
    · exact hzero
    · exact absurd hsmall (not_le.mpr hused)
  have hsamples : samples 33 = 33 := rfl
  have hrun := @ksvd_update nearDecomposition 4 2 nearPursuit 33 1 nearPatches nearColumns (by decide)
    nearDecomposition_exact
  rw [hsamples] at hrun
  have hstart : ∀ k, beforeAtom nearDecomposition 4 2 33 (samplePatch 4 33 nearPatches) nearPursuit
      (dictionaryAfter nearDecomposition 4 2 33 (samplePatch 4 33 nearPatches) nearPursuit
        (fun a => normalizeAtom 4 (nearColumns a)) 0) k = nearRun k := fun _ => rfl
  have hatom := hrun hcodes 0 Nat.zero_lt_one 1 Nat.one_lt_two
  simp only [hstart, Nat.reduceAdd] at hatom
  obtain ⟨hunit, -, hexact, -⟩ := hatom
  refine ⟨hunit, hexact 0 (by decide) fun k' hk' => ?_⟩
  by_cases hzero : k' = 0
  · subst hzero
    rintro ⟨-, hused, -⟩
    have hcode : (nearRun 0).A 0 0 = 0 := by
      rw [nearRun_zero_code (by decide)]
      exact if_neg (by decide)
    have hused : 1e-8 < |(nearRun 0).A 0 0| := hused
    rw [hcode, abs_zero] at hused
    norm_num at hused
  · obtain rfl : k' = 1 := by omega
    rintro ⟨-, -, hmem⟩
    have hmem : 0 ∉ support 33 (nearRun 1).A 1 := hmem
    rw [nearRun_one, nearRun_support] at hmem
    exact hmem (by simp)

end NssFactory.Cpu.Ksvd
