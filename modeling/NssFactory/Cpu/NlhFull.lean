import NssFactory.Cpu.TwscImage
import NssFactory.Lib.Lanes
import NssFactory.Lib.Lines
import NssFactory.Lib.Tiles

/-!
# The shared-index group filter of NLH

`nlh_filter_full` gathers, for every row of a group, the rows its indices name into a small
matrix, filters all the matrices in batch, and adds what comes back to the pixels the indices
name. `fullFilter_sums` reads every numerator and denominator off the index table, whichever of
the three forms runs; `shrinkFull_apply` reads the vector shrinkage coefficient by coefficient.
-/

namespace NssFactory.Cpu.NlhFull

/-! ## The shrinkage -/

/-- The arithmetic of the shrinkage. A float survives the way to a double and back. -/
structure ShrinkArith (F D : Type) where
  zero : F
  promote : F → D
  demote : D → F
  dzero : D
  done : D
  mul : D → D → D
  add : D → D → D
  div : D → D → D
  abs : D → D
  lt : D → D → Bool
  eq : D → D → Bool
  demote_promote : ∀ x, demote (promote x) = x
  demote_dzero : demote dzero = zero

section Shrink

variable {F D : Type} (s : ShrinkArith F D)

/-- The arguments of `NlhShrinkFull` beside the matrix. -/
structure Shrink (F D : Type) where
  reference : Int → F
  q : Nat
  n : Nat
  threshold : D
  noise : D
  wiener_iterations : Nat
  wiener : Bool

variable (p : Shrink F D)

def Shrink.structural_k : Int := max 0 ((p.q : Int) - 2)

/-- A coefficient under the Wiener gain of its reference. -/
def wienerValue (index : Int) (v : F) : F :=
  let r := s.promote (p.reference index)
  let r2 := s.mul r r
  let gain := if s.eq p.noise s.dzero then s.done else s.div r2 (s.add r2 p.noise)
  s.demote ((List.range p.wiener_iterations).foldl (fun value _ => s.mul value gain) (s.promote v))

/-- One lane of the vector loop; the place is taken from the flat index by its bits. -/
def vectorValue (index : Int) (v : F) : F :=
  if p.wiener then wienerValue s p index v
  else
    let jrow := index > (p.q : Int) - 1
    let kcol : Int := (index.toNat &&& (p.q - 1) : Nat)
    let value := s.promote v
    s.demote (if s.lt (s.abs value) p.threshold ∨ (jrow ∧ kcol ≥ p.structural_k) then s.dzero else value)

def scalarValue (index : Int) (v : F) : F :=
  if p.wiener then wienerValue s p index v
  else
    let j := index / p.q
    let k := index - j * p.q
    if s.lt (s.abs (s.promote v)) p.threshold ∨ (j > 0 ∧ k ≥ p.structural_k) then s.zero else v

/-- `NlhShrinkFull` with `lanes` doubles a vector. -/
def nlhShrinkFull (lanes : Int) (matrix : Int → F) : Int → F :=
  stripLoop 0 lanes (fun _ => vectorValue s p) (scalarValue s p) 0 (p.q * p.n) matrix

variable {s p}

/-- The bits of the flat index are its column and its row. -/
theorem vectorValue_eq {e : Nat} (hq : p.q = 2 ^ e) {index : Int} (hindex : 0 ≤ index) (v : F) :
    vectorValue s p index v = scalarValue s p index v := by
  obtain ⟨i, rfl⟩ := Int.eq_ofNat_of_zero_le hindex
  have hpos : 0 < p.q := by rw [hq]; exact Nat.two_pow_pos e
  have hbits : i &&& (p.q - 1) = i % p.q := by rw [hq, Nat.and_two_pow_sub_one_eq_mod]
  have hsplit := Nat.div_add_mod i p.q
  have hrow : ((i : Int) > (p.q : Int) - 1) ↔ ((i : Int) / p.q > 0) := by
    rw [← Int.natCast_ediv]
    constructor
    · intro h
      have := Nat.div_pos (show p.q ≤ i by omega) hpos
      omega
    · intro h
      have := (Nat.div_pos_iff.mp (show 0 < i / p.q by omega)).2
      omega
  have hcol : (i : Int) - (i : Int) / p.q * p.q = ((i % p.q : Nat) : Int) := by
    rw [Int.natCast_mod, Int.emod_def, Int.mul_comm]
  unfold vectorValue scalarValue
  simp only [Int.toNat_natCast, hbits, hrow, hcol]
  split
  · rfl
  · split
    · exact s.demote_dzero
    · exact s.demote_promote v

/-- Whatever the width of a vector, the coefficients of the matrix become what the scalar loop
makes of them, and nothing else changes. -/
theorem shrinkFull_apply {lanes : Int} (hlanes : 0 < lanes) {e : Nat} (hq : p.q = 2 ^ e) (matrix : Int → F)
    (index : Int) : nlhShrinkFull s p lanes matrix index =
      if 0 ≤ index ∧ index < p.q * p.n then scalarValue s p index (matrix index) else matrix index := by
  have hloop : nlhShrinkFull s p lanes matrix = scalarLoop 0 (scalarValue s p) 0 (p.q * p.n) matrix :=
    stripLoop_eq hlanes fun c y hc _ hy _ => vectorValue_eq hq (by omega) _
  rw [hloop, scalarLoop_apply, Int.sub_zero]

/-- Hard thresholding clears the small coefficients and those of the last rows of every column but
the first. -/
theorem shrinkFull_hard {lanes : Int} (hlanes : 0 < lanes) {e : Nat} (hq : p.q = 2 ^ e) (hhard : p.wiener = false)
    (matrix : Int → F) (index : Int) : nlhShrinkFull s p lanes matrix index =
      if (0 ≤ index ∧ index < p.q * p.n) ∧ (s.lt (s.abs (s.promote (matrix index))) p.threshold ∨
        (0 < index / p.q ∧ max 0 ((p.q : Int) - 2) ≤ index % p.q)) then s.zero else matrix index := by
  have hmod : index - index / p.q * p.q = index % p.q := by rw [Int.emod_def, Int.mul_comm]
  rw [shrinkFull_apply hlanes hq]
  by_cases hin : 0 ≤ index ∧ index < p.q * p.n
  · simp only [hin, scalarValue, hhard, hmod, Shrink.structural_k, Bool.false_eq_true, if_false, and_self, if_true,
      true_and, gt_iff_lt, ge_iff_le]
  · simp only [hin, if_false, false_and]

end Shrink

/-! ## The group filter -/

/-- The arithmetic of the filter. Small counts are exact as doubles. -/
structure GroupArith (F D : Type) where
  zero : F
  nonfinite : F → Bool
  ofFloat : F → D
  ofNat : Nat → D
  add : D → D → D
  mul : D → D → D
  le : D → D → Bool
  eq : D → D → Bool
  isFinite : D → Bool
  hardCoefficient : D
  count_exact : ∀ c < 4096, add (ofNat c) (ofNat 1) = ofNat (c + 1)

structure NlhGroupOptions (D : Type) where
  q : Nat
  sigma : D
  wiener : Bool
  hard_strength : D
  wiener_iterations : Int
  wiener_sigma_scale : D

/-- What the transform and the shrinkage make of one matrix, place by place. -/
structure Transforms (F D : Type) where
  haar2d : (q n : Nat) → (inverse : Bool) → List F → Nat → F
  shrink : List F → Option (List F) → (q n : Nat) → (threshold noise : D) → (iterations : Int) → (wiener : Bool) →
    Nat → F

structure NlhWorkspace (F D : Type) where
  indices : Nat → Int
  matrix : Nat → F
  reference : Nat → F
  numerator : Nat → D
  denominator : Nat → D

section Filter

variable {F D : Type} (a : GroupArith F D) (tr : Transforms F D)

/-- The group: `n` columns of `m` samples, `lda` apart, and the reference of the Wiener stage. -/
structure PixelGroup (F : Type) where
  input : Nat → F
  reference : Option (Nat → F)
  m : Nat
  n : Nat
  lda : Nat

variable (g : PixelGroup F) (o : NlhGroupOptions D)

def invalidParameters : Bool :=
  g.m < 1 || g.m > 256 || g.n < 1 || g.n > 64 || g.n &&& (g.n - 1) != 0 || g.lda < g.m || o.q < 1 || o.q > 16 ||
    o.q > g.m || o.q &&& (o.q - 1) != 0 || !a.le (a.ofNat 0) o.sigma || !a.isFinite o.sigma ||
    !a.le (a.ofNat 0) o.hard_strength || !a.isFinite o.hard_strength || o.wiener_iterations < 1 ||
    o.wiener_iterations > 64 || !a.le (a.ofNat 0) o.wiener_sigma_scale || !a.isFinite o.wiener_sigma_scale ||
    (o.wiener && g.reference.isNone)

/-- The reference, where there is one. -/
def PixelGroup.guide : Nat → F := g.reference.getD g.input

def nonfiniteInput : Bool :=
  (List.range g.n).any fun j => (List.range g.m).any fun i =>
    a.nonfinite (g.input (i + j * g.lda)) || (o.wiener && a.nonfinite (g.guide (i + j * g.lda)))

/-- `f` on each of `count` matrices stored one after the other. -/
def batch (count size : Nat) (f : Nat → List F → Nat → F) (buffer : Nat → F) : Nat → F := fun x =>
  if x < count * size then f (x / size) ((List.range size).map fun y => buffer (x / size * size + y)) (x % size)
  else buffer x

variable (idx : Nat → Nat)

/-- The stores that gather the matrix of `row` from the samples of `plane`. -/
def gatherRow (plane : Nat → F) (row : Nat) : List (Nat × F) :=
  let size := o.q * g.n
  if o.q = 4 then
    let i0 := idx (row * o.q)
    let i1 := idx (row * o.q + 1)
    let i2 := idx (row * o.q + 2)
    let i3 := idx (row * o.q + 3)
    (List.range g.n).flatMap fun j =>
      [(row * size + j * 4, plane (i0 + j * g.lda)), (row * size + (j * 4 + 1), plane (i1 + j * g.lda)),
        (row * size + (j * 4 + 2), plane (i2 + j * g.lda)), (row * size + (j * 4 + 3), plane (i3 + j * g.lda))]
  else (List.range g.n).flatMap fun j => (List.range o.q).map fun k =>
    (row * size + (j * o.q + k), plane (idx (row * o.q + k) + j * g.lda))

/-- The additions of the matrix of `row` to the numerator. -/
def scatterRow (matrix : Nat → F) (row : Nat) : List (Nat × F) :=
  let size := o.q * g.n
  if o.q = 4 then
    let i0 := idx (row * o.q)
    let i1 := idx (row * o.q + 1)
    let i2 := idx (row * o.q + 2)
    let i3 := idx (row * o.q + 3)
    (List.range g.n).flatMap fun j =>
      [(j * g.m + i0, matrix (row * size + j * 4)), (j * g.m + i1, matrix (row * size + (j * 4 + 1))),
        (j * g.m + i2, matrix (row * size + (j * 4 + 2))), (j * g.m + i3, matrix (row * size + (j * 4 + 3)))]
  else (List.range g.n).flatMap fun j => (List.range o.q).map fun k =>
    (j * g.m + idx (row * o.q + k), matrix (row * size + (j * o.q + k)))

/-- The additions where sigma is zero: the samples as they are. -/
def shortcut : List (Nat × F) :=
  (List.range g.m).flatMap fun row => (List.range g.n).flatMap fun j => (List.range o.q).map fun k =>
    (j * g.m + idx (row * o.q + k), g.input (idx (row * o.q + k) + j * g.lda))

def addFloats (adds : List (Nat × F)) : Nat → D :=
  Lines.addAll (fun sum v => a.add sum (a.ofFloat v)) adds fun _ => a.ofNat 0

/-- How often the table names each pixel. -/
def pixelCounts : Nat → Nat :=
  (List.range (g.m * o.q)).foldl (fun counts i => Function.update counts (idx i) (counts (idx i) + 1)) fun _ => 0

/-- The sums of the general form, and the matrices it leaves in the workspace. -/
def filterRows (w : NlhWorkspace F D) : NlhWorkspace F D :=
  let size := o.q * g.n
  let threshold := a.mul (a.mul a.hardCoefficient o.hard_strength) o.sigma
  let scaled := a.mul o.wiener_sigma_scale o.sigma
  let noise := a.mul scaled scaled
  let gathered (plane : Nat → F) (buffer : Nat → F) : Nat → F :=
    Lines.storeAll ((List.range g.m).flatMap (gatherRow g o idx plane)) buffer
  let forward := batch (F := F) g.m size fun _ => tr.haar2d o.q g.n false
  let matrix := forward (gathered g.input w.matrix)
  let reference := if o.wiener then forward (gathered g.guide w.reference) else w.reference
  let shrunk := batch g.m size (fun row l => tr.shrink l
    (if o.wiener then some ((List.range size).map fun y => reference (row * size + y)) else none)
    o.q g.n threshold noise o.wiener_iterations o.wiener) matrix
  let matrix := batch g.m size (fun _ => tr.haar2d o.q g.n true) shrunk
  let counts := pixelCounts g o idx
  { w with
    matrix := matrix
    reference := reference
    denominator := Lines.storeAll ((List.range g.n).flatMap fun j => (List.range g.m).map fun i =>
      (j * g.m + i, a.ofNat (counts i))) fun _ => a.ofNat 0
    numerator := addFloats a ((List.range g.m).flatMap (scatterRow g o idx matrix)) }

/-- `nlh_filter_full`; without a table it matches the pixels of the group itself. -/
def nlhFilterFull (pixelMatch : (Nat → F) → (m n lda q : Nat) → Nat → Int) (row_indices : Option (Nat → Int))
    (w : NlhWorkspace F D) : Except String (NlhWorkspace F D) :=
  if invalidParameters a g o then .error "nss.NLH: invalid full group parameters"
  else if nonfiniteInput a g o then .error "nss.NLH: nonfinite group input"
  else
    let indices := row_indices.getD
      (pixelMatch (if o.wiener then g.guide else g.input) g.m g.n g.lda o.q)
    let w := if row_indices.isNone then { w with indices := indices } else w
    if (List.range (g.m * o.q)).any fun i => indices i < 0 || indices i ≥ g.m then
      .error "nss.NLH: invalid shared pixel index"
    else
      let idx (i : Nat) : Nat := (indices i).toNat
      if a.eq o.sigma (a.ofNat 0) then
        .ok { w with
          numerator := addFloats a (shortcut g o idx)
          denominator := Lines.addAll (fun sum _ => a.add sum (a.ofNat 1)) (shortcut g o idx) fun _ => a.ofNat 0 }
      else .ok (filterRows a tr g o idx w)

/-! ### What it computes -/

/-- The matrix of a row as its indices name it: entry `k` of column `j` is at `j * q + k`. -/
def rowMatrix (plane : Nat → F) (row : Nat) : List F :=
  (List.range (o.q * g.n)).map fun x => plane (idx (row * o.q + x % o.q) + x / o.q * g.lda)

/-- A row's matrix, transformed, shrunk and transformed back; as it is for zero sigma. -/
def filteredRow (row : Nat) : List F :=
  let apply (f : List F → Nat → F) (l : List F) : List F := (List.range (o.q * g.n)).map (f l)
  if a.eq o.sigma (a.ofNat 0) then rowMatrix g o idx g.input row
  else
    let threshold := a.mul (a.mul a.hardCoefficient o.hard_strength) o.sigma
    let scaled := a.mul o.wiener_sigma_scale o.sigma
    let forward := apply (tr.haar2d o.q g.n false)
    let reference := if o.wiener then some (forward (rowMatrix g o idx g.guide row)) else none
    apply (tr.haar2d o.q g.n true) (apply (fun l => tr.shrink l reference o.q g.n threshold (a.mul scaled scaled)
      o.wiener_iterations o.wiener) (forward (rowMatrix g o idx g.input row)))

/-- The places of the table that name pixel `i`, in order: place `row * q + k` is entry `k` of `row`. -/
def naming (i : Nat) : List Nat := (List.range (g.m * o.q)).filter fun x => idx x = i

/-- Entry `(k, j)` of the filtered matrix of place `x`'s row. -/
def filteredEntry (x j : Nat) : F := (filteredRow a tr g o idx (x / o.q)).getD (j * o.q + x % o.q) a.zero

end Filter

section FilterProofs

variable {F D : Type} {a : GroupArith F D} {tr : Transforms F D} {g : PixelGroup F} {o : NlhGroupOptions D}
  {idx : Nat → Nat} {i j row : Nat}

/-! ### The two forms of a row -/

theorem gatherRow_eq (plane : Nat → F) : gatherRow g o idx plane row =
    (List.range g.n).flatMap fun j => (List.range o.q).map fun k =>
      (row * (o.q * g.n) + (j * o.q + k), plane (idx (row * o.q + k) + j * g.lda)) := by
  unfold gatherRow
  split
  · rename_i hq
    simp only [hq]
    rfl
  · rfl

theorem scatterRow_eq (matrix : Nat → F) : scatterRow g o idx matrix row =
    (List.range g.n).flatMap fun j => (List.range o.q).map fun k =>
      (j * g.m + idx (row * o.q + k), matrix (row * (o.q * g.n) + (j * o.q + k))) := by
  unfold scatterRow
  split
  · rename_i hq
    simp only [hq]
    rfl
  · rfl

/-! ### Matrices -/

theorem entry_lt {k q n : Nat} (hj : j < n) (hk : k < q) : j * q + k < q * n := by
  have hle : (j + 1) * q ≤ n * q := Nat.mul_le_mul_right q hj
  have hsucc : (j + 1) * q = j * q + q := by ring
  have hcomm : n * q = q * n := Nat.mul_comm n q
  omega

/-- Every place of the matrices is gathered. -/
theorem gathered_slice {plane buffer : Nat → F} (hrow : row < g.m) :
    ((List.range (o.q * g.n)).map fun y =>
      Lines.storeAll ((List.range g.m).flatMap (gatherRow g o idx plane)) buffer (row * (o.q * g.n) + y)) =
      rowMatrix g o idx plane row := by
  refine List.map_congr_left fun y hy => ?_
  have hy := List.mem_range.mp hy
  have hq : 0 < o.q := Nat.pos_of_ne_zero fun h => by simp [h] at hy
  have hyj : y / o.q < g.n := (Nat.div_lt_iff_lt_mul hq).mpr (by rwa [Nat.mul_comm])
  rw [Lines.storeAll_of_mem fun x => plane (idx (x / (o.q * g.n) * o.q + x % (o.q * g.n) % o.q) +
    x % (o.q * g.n) / o.q * g.lda)]
  · rw [Lines.div_row hy, Lines.mod_row hy]
  · intro s hs
    obtain ⟨row', -, hs⟩ := List.mem_flatMap.mp hs
    rw [gatherRow_eq] at hs
    obtain ⟨j, hj, hs⟩ := List.mem_flatMap.mp hs
    obtain ⟨k, hk, rfl⟩ := List.mem_map.mp hs
    have hk := List.mem_range.mp hk
    have hlt := entry_lt (List.mem_range.mp hj) hk
    rw [Lines.div_row hlt, Lines.mod_row hlt, Lines.div_row hk, Lines.mod_row hk]
  · refine List.mem_map.mpr ⟨(row * (o.q * g.n) + y, plane (idx (row * o.q + y % o.q) + y / o.q * g.lda)), ?_, rfl⟩
    refine List.mem_flatMap.mpr ⟨row, List.mem_range.mpr hrow, ?_⟩
    rw [gatherRow_eq]
    refine List.mem_flatMap.mpr ⟨y / o.q, List.mem_range.mpr hyj, ?_⟩
    refine List.mem_map.mpr ⟨y % o.q, List.mem_range.mpr (Nat.mod_lt y hq), ?_⟩
    rw [Nat.div_add_mod']

theorem batch_slice {count size : Nat} {f : Nat → List F → Nat → F} {buffer : Nat → F} (hrow : row < count) :
    ((List.range size).map fun y => batch count size f buffer (row * size + y)) =
      (List.range size).map (f row ((List.range size).map fun y => buffer (row * size + y))) := by
  refine List.map_congr_left fun y hy => ?_
  have hy := List.mem_range.mp hy
  have hle : (row + 1) * size ≤ count * size := Nat.mul_le_mul_right size hrow
  have hsucc : (row + 1) * size = row * size + size := by ring
  rw [batch, if_pos (by omega), Lines.div_row hy, Lines.mod_row hy]

/-- The matrices that come back are the filtered rows. -/
theorem filterRows_slice (hsigma : a.eq o.sigma (a.ofNat 0) = false) (w : NlhWorkspace F D) (hrow : row < g.m) :
    ((List.range (o.q * g.n)).map fun y => (filterRows a tr g o idx w).matrix (row * (o.q * g.n) + y)) =
      filteredRow a tr g o idx row := by
  simp only [filterRows, filteredRow, hsigma, batch_slice hrow, gathered_slice hrow]
  cases o.wiener with
  | false => rfl
  | true => simp only [if_true, batch_slice hrow, gathered_slice hrow]; rfl

/-! ### Pixels -/

theorem length_naming_le (g : PixelGroup F) (o : NlhGroupOptions D) (idx : Nat → Nat) (i : Nat) :
    (naming g o idx i).length ≤ g.m * o.q := by
  refine (List.length_filter_le _ _).trans ?_
  rw [List.length_range]

theorem flatMap_at {β : Type} {n : Nat} (f : Nat → List β) (hj : j < n) :
    ((List.range n).flatMap fun j' => if j' = j then f j' else []) = f j := by
  induction n with
  | zero => omega
  | succ n ih =>
    rw [List.range_succ, List.flatMap_append, List.flatMap_cons, List.flatMap_nil, List.append_nil]
    by_cases hn : n = j
    · subst hn
      rw [if_pos rfl, List.flatMap_congr (g := fun _ => []) fun j' hj' => if_neg (by
        have := List.mem_range.mp hj'
        omega)]
      simp
    · rw [if_neg hn, List.append_nil, ih (by omega)]

/-- Of the additions row by row, those to sample `i` of column `j` are in the order of the table. -/
theorem additions_at {v : Nat → Nat → Nat → F} (hidx : ∀ x < g.m * o.q, idx x < g.m) (hi : i < g.m)
    (hj : j < g.n) :
    ((((List.range g.m).flatMap fun row => (List.range g.n).flatMap fun j => (List.range o.q).map fun k =>
      (j * g.m + idx (row * o.q + k), v row j k)).filter fun s => s.1 = j * g.m + i).map Prod.snd) =
      (naming g o idx i).map fun x => v (x / o.q) j (x % o.q) := by
  have hplaces : List.range (g.m * o.q) =
      (List.range g.m).flatMap fun row => (List.range o.q).map fun k => row * o.q + k := by
    have h := Tiles.flatMap_range' g.m o.q 0
    simp only [Nat.zero_add, List.range'_eq_map_range] at h
    simpa using h.symm
  rw [naming, hplaces, List.filter_flatMap, List.filter_flatMap, List.map_flatMap, List.map_flatMap]
  refine List.flatMap_congr fun row hrow => ?_
  have hrow := List.mem_range.mp hrow
  rw [List.filter_flatMap]
  have hcolumn : ∀ j' ∈ List.range g.n,
      (((List.range o.q).map fun k => (j' * g.m + idx (row * o.q + k), v row j' k)).filter
        fun s => s.1 = j * g.m + i) = if j' = j then ((List.range o.q).filter fun k => idx (row * o.q + k) = i).map
          fun k => (j' * g.m + idx (row * o.q + k), v row j' k) else [] := by
    intro j' _
    rw [List.filter_map]
    have hlt : ∀ k ∈ List.range o.q, idx (row * o.q + k) < g.m := by
      intro k hk
      have := entry_lt hrow (List.mem_range.mp hk)
      exact hidx _ (by rwa [Nat.mul_comm o.q] at this)
    split
    · rename_i heq
      subst heq
      congr 1
      refine List.filter_congr fun k hk => ?_
      simp
    · rename_i hne
      rw [List.map_eq_nil_iff, List.filter_eq_nil_iff]
      intro k hk
      have hk := hlt k hk
      simp only [Function.comp_apply, decide_eq_true_eq]
      intro heq
      apply hne
      have hj' : (j' * g.m + idx (row * o.q + k)) / g.m = j' := Lines.div_row hk
      rw [← hj', heq, Lines.div_row hi]
  rw [List.flatMap_congr hcolumn, flatMap_at _ hj, List.map_map, List.filter_map, List.map_map]
  refine List.map_congr_left fun k hk => ?_
  have hk := List.mem_range.mp (List.mem_filter.mp hk).1
  simp only [Function.comp_apply, Lines.div_row hk, Lines.mod_row hk]

/-- No place names a pixel outside the group. -/
theorem additions_off {v : Nat → Nat → Nat → F} (hidx : ∀ x < g.m * o.q, idx x < g.m) {x : Nat}
    (hx : g.m * g.n ≤ x) :
    (((List.range g.m).flatMap fun row => (List.range g.n).flatMap fun j => (List.range o.q).map fun k =>
      (j * g.m + idx (row * o.q + k), v row j k)).filter fun s => s.1 = x) = [] := by
  rw [List.filter_eq_nil_iff]
  intro s hs
  obtain ⟨row, hrow, hs⟩ := List.mem_flatMap.mp hs
  obtain ⟨j, hj, hs⟩ := List.mem_flatMap.mp hs
  obtain ⟨k, hk, rfl⟩ := List.mem_map.mp hs
  have hplace := entry_lt (List.mem_range.mp hrow) (List.mem_range.mp hk)
  have hlt := entry_lt (List.mem_range.mp hj) (hidx _ (by rwa [Nat.mul_comm o.q] at hplace))
  simp only [decide_eq_true_eq]
  omega

/-! ### Sums -/

theorem pixelCounts_eq : pixelCounts g o idx i = (naming g o idx i).length := by
  have hadd : pixelCounts g o idx =
      Lines.addAll (fun (c : Nat) (_ : Nat) => c + 1) ((List.range (g.m * o.q)).map fun x => (idx x, x)) fun _ => 0 := by
    unfold pixelCounts Lines.addAll
    rw [List.foldl_map]
  have hlen : ∀ (l : List Nat) (c : Nat), l.foldl (fun c _ => c + 1) c = c + l.length := by
    intro l
    induction l with
    | nil => intro c; rfl
    | cons x l ih =>
      intro c
      rw [List.foldl_cons, ih, List.length_cons]
      omega
  rw [hadd, Lines.addAll_apply, hlen, List.length_map, List.filter_map, List.length_map, Nat.zero_add]
  rfl

/-- Ones added to zero are counted exactly, as many as a table can have. -/
theorem foldl_count {β : Type} (l : List β) {c : Nat} (h : c + l.length ≤ 4096) :
    l.foldl (fun sum _ => a.add sum (a.ofNat 1)) (a.ofNat c) = a.ofNat (c + l.length) := by
  induction l generalizing c with
  | nil => rfl
  | cons x l ih =>
    rw [List.length_cons] at h
    rw [List.foldl_cons, a.count_exact c (by omega), ih (by omega), List.length_cons,
      show c + 1 + l.length = c + (l.length + 1) by omega]

variable (a g o idx) in
/-- The denominators: for every pixel and column how often the table names the pixel. -/
def tableCounts : Nat → D := fun x =>
  if x < g.m * g.n then a.ofNat (naming g o idx (x % g.m)).length else a.ofNat 0

theorem tableCounts_at (hi : i < g.m) (hj : j < g.n) :
    tableCounts a g o idx (j * g.m + i) = a.ofNat (naming g o idx i).length := by
  rw [tableCounts, if_pos (entry_lt hj hi), Lines.mod_row hi]

theorem shortcut_denominator (hidx : ∀ x < g.m * o.q, idx x < g.m) (hsmall : g.m * o.q ≤ 4096) :
    Lines.addAll (fun sum _ => a.add sum (a.ofNat 1)) (shortcut g o idx) (fun _ => a.ofNat 0) =
      tableCounts a g o idx := by
  funext x
  rw [Lines.addAll_apply]
  unfold tableCounts
  by_cases hx : x < g.m * g.n
  · have hm : 0 < g.m := Nat.pos_of_ne_zero fun h => by simp [h] at hx
    have hj : x / g.m < g.n := (Nat.div_lt_iff_lt_mul hm).mpr (by rwa [Nat.mul_comm])
    have hadds := additions_at (v := fun row j k => g.input (idx (row * o.q + k) + j * g.lda)) hidx
      (Nat.mod_lt x hm) hj
    rw [Nat.div_add_mod'] at hadds
    have hlen := length_naming_le g o idx (x % g.m)
    rw [if_pos hx, shortcut, hadds, foldl_count _ (by rw [List.length_map]; omega), List.length_map, Nat.zero_add]
  · rw [if_neg hx, shortcut, additions_off hidx (by omega)]
    rfl

theorem filterRows_denominator (w : NlhWorkspace F D) :
    (filterRows a tr g o idx w).denominator = tableCounts a g o idx := by
  funext x
  simp only [filterRows, pixelCounts_eq]
  unfold tableCounts
  rw [Lines.storeAll_apply fun x => a.ofNat (naming g o idx (x % g.m)).length]
  · congr 1
    rw [eq_iff_iff, List.mem_map]
    constructor
    · rintro ⟨s, hs, rfl⟩
      obtain ⟨j, hj, hs⟩ := List.mem_flatMap.mp hs
      obtain ⟨i, hi, rfl⟩ := List.mem_map.mp hs
      exact entry_lt (List.mem_range.mp hj) (List.mem_range.mp hi)
    · intro hx
      have hm : 0 < g.m := Nat.pos_of_ne_zero fun h => by simp [h] at hx
      have hj : x / g.m < g.n := (Nat.div_lt_iff_lt_mul hm).mpr (by rwa [Nat.mul_comm])
      refine ⟨(x / g.m * g.m + x % g.m, _), List.mem_flatMap.mpr ⟨x / g.m, List.mem_range.mpr hj,
        List.mem_map.mpr ⟨x % g.m, List.mem_range.mpr (Nat.mod_lt x hm), rfl⟩⟩, Nat.div_add_mod' ..⟩
  · intro s hs
    obtain ⟨j, -, hs⟩ := List.mem_flatMap.mp hs
    obtain ⟨i, hi, rfl⟩ := List.mem_map.mp hs
    rw [Lines.mod_row (List.mem_range.mp hi)]

/-- The sums of a pixel over the places that name it. -/
def namedSum (a : GroupArith F D) (tr : Transforms F D) (g : PixelGroup F) (o : NlhGroupOptions D) (idx : Nat → Nat)
    (i j : Nat) : D :=
  ((naming g o idx i).map fun x => filteredEntry a tr g o idx x j).foldl (fun sum v => a.add sum (a.ofFloat v))
    (a.ofNat 0)

theorem place_lt {x : Nat} (hx : x ∈ naming g o idx i) : x / o.q < g.m ∧ x % o.q < o.q := by
  have hx := List.mem_range.mp (List.mem_filter.mp hx).1
  have hq : 0 < o.q := Nat.pos_of_ne_zero fun h => by simp [h] at hx
  exact ⟨(Nat.div_lt_iff_lt_mul hq).mpr hx, Nat.mod_lt x hq⟩

theorem shortcut_numerator (hsigma : a.eq o.sigma (a.ofNat 0) = true) (hidx : ∀ x < g.m * o.q, idx x < g.m)
    (hi : i < g.m) (hj : j < g.n) :
    addFloats a (shortcut g o idx) (j * g.m + i) = namedSum a tr g o idx i j := by
  rw [addFloats, Lines.addAll_apply, shortcut,
    additions_at (v := fun row j k => g.input (idx (row * o.q + k) + j * g.lda)) hidx hi hj, namedSum]
  congr 1
  refine List.map_congr_left fun x hx => ?_
  have hk := (place_lt hx).2
  have hentry := entry_lt hj hk
  rw [filteredEntry, filteredRow, if_pos hsigma, rowMatrix, List.getD_eq_getElem?_getD, List.getElem?_map,
    List.getElem?_range hentry, Option.map_some, Option.getD_some, Lines.mod_row hk, Lines.div_row hk]

theorem filterRows_numerator (hsigma : a.eq o.sigma (a.ofNat 0) = false)
    (hidx : ∀ x < g.m * o.q, idx x < g.m) (w : NlhWorkspace F D) (hi : i < g.m) (hj : j < g.n) :
    (filterRows a tr g o idx w).numerator (j * g.m + i) = namedSum a tr g o idx i j := by
  have hadds := additions_at (v := fun row j k =>
    (filterRows a tr g o idx w).matrix (row * (o.q * g.n) + (j * o.q + k))) hidx hi hj
  have hrows : (filterRows a tr g o idx w).numerator = addFloats a ((List.range g.m).flatMap fun row =>
      (List.range g.n).flatMap fun j => (List.range o.q).map fun k => (j * g.m + idx (row * o.q + k),
        (filterRows a tr g o idx w).matrix (row * (o.q * g.n) + (j * o.q + k)))) := by
    simp only [← scatterRow_eq]
    rfl
  rw [hrows, addFloats, Lines.addAll_apply, hadds, namedSum]
  congr 1
  refine List.map_congr_left fun x hx => ?_
  obtain ⟨hrow, hk⟩ := place_lt hx
  have hentry := entry_lt hj hk
  rw [filteredEntry, ← filterRows_slice hsigma w hrow, List.getD_eq_getElem?_getD, List.getElem?_map,
    List.getElem?_range hentry, Option.map_some, Option.getD_some]

/-- An index table the checks admit. -/
def Admitted (g : PixelGroup F) (o : NlhGroupOptions D) (table : Nat → Int) : Prop :=
  ∀ x < g.m * o.q, 0 ≤ table x ∧ table x < g.m

variable {pixelMatch : (Nat → F) → Nat → Nat → Nat → Nat → Nat → Int} {table : Nat → Int}

theorem small_table (h : invalidParameters a g o = false) : g.m * o.q ≤ 4096 := by
  simp only [invalidParameters, Bool.or_eq_false_iff, decide_eq_false_iff_not] at h
  have hm : g.m ≤ 256 := by omega
  have hq : o.q ≤ 16 := by omega
  exact Nat.mul_le_mul hm hq

theorem table_lt (h : Admitted g o table) : ∀ x < g.m * o.q, (table x).toNat < g.m := by
  intro x hx
  have := h x hx
  omega

theorem not_any_invalid (h : Admitted g o table) :
    ((List.range (g.m * o.q)).any fun i => table i < 0 || table i ≥ g.m) = false := by
  rw [List.any_eq_false]
  intro x hx
  have := h x (List.mem_range.mp hx)
  simp only [Bool.or_eq_true, decide_eq_true_eq]
  omega

/-- Whichever form runs, a numerator is the sum over the places that name its pixel, in their order,
and its denominator is their number. -/
theorem fullFilter_sums (hparams : invalidParameters a g o = false) (hfinite : nonfiniteInput a g o = false)
    (htable : Admitted g o table) (w : NlhWorkspace F D) :
    ∃ w', nlhFilterFull a tr g o pixelMatch (some table) w = .ok w' ∧ ∀ i < g.m, ∀ j < g.n,
      w'.numerator (j * g.m + i) = namedSum a tr g o (fun x => (table x).toNat) i j ∧
      w'.denominator (j * g.m + i) = a.ofNat (naming g o (fun x => (table x).toNat) i).length := by
  have hidx := table_lt htable
  have hsmall := small_table hparams
  simp only [nlhFilterFull, hparams, hfinite, Option.getD_some, Option.isNone_some, not_any_invalid htable]
  cases hsigma : a.eq o.sigma (a.ofNat 0) with
  | true =>
    refine ⟨_, rfl, fun i hi j hj => ⟨shortcut_numerator hsigma hidx hi hj, ?_⟩⟩
    rw [← tableCounts_at hi hj]
    exact congrFun (shortcut_denominator hidx hsmall) _
  | false =>
    refine ⟨_, rfl, fun i hi j hj => ⟨filterRows_numerator hsigma hidx w hi hj, ?_⟩⟩
    rw [← tableCounts_at hi hj]
    exact congrFun (filterRows_denominator w) _

/-- The denominators of a filter that has not thrown are the counts of its table. -/
theorem fullFilter_denominator {w w' : NlhWorkspace F D}
    (h : nlhFilterFull a tr g o pixelMatch (some table) w = .ok w') :
    w'.denominator = tableCounts a g o fun x => (table x).toNat := by
  unfold nlhFilterFull at h
  split at h
  · cases h
  · rename_i hparams
    split at h
    · cases h
    · simp only [Option.getD_some, Option.isNone_some] at h
      split at h
      · cases h
      · rename_i hvalid
        have hidx : ∀ x < g.m * o.q, (table x).toNat < g.m := by
          intro x hx
          rw [List.any_eq_true] at hvalid
          by_contra hout
          refine hvalid ⟨x, List.mem_range.mpr hx, ?_⟩
          simp only [Bool.or_eq_true, decide_eq_true_eq]
          omega
        split at h
        · cases h
          exact shortcut_denominator hidx (small_table (by simpa using hparams))
        · cases h
          exact filterRows_denominator w

end FilterProofs

end NssFactory.Cpu.NlhFull
