import NssFactory.Lib.Numerals
import NssFactory.Cpu.FloatOps
import NssFactory.Lib.Areas
import NssFactory.Lib.Loops

/-!
# The coding of a cluster

`LsscReconstructImpl` runs an accelerated proximal gradient on a cluster of patches `Y` with a
dictionary `D`. A soft threshold zeroes whole rows of the coefficients, one row for each atom, and
the product with `D` multiplies the rows alone that may not be zero (`product`), packed into the
area of the gradient.

`Plain` is the scheme with all atoms in every product and no work area.
-/

namespace NssFactory.Cpu.LsscReconstruct

open Areas

abbrev Mat (F : Type) := Nat → Nat → F

/-- What an element of the work area is written for. -/
inductive Use
  | mean
  | coefficients
  | product
  | residual
  | gradient
  | packed
  | previous
  | pack
  deriving DecidableEq

/-- The optional matrix leaf takes whole multiples of sixteen rows, and so of the lanes beside it. -/
structure Build (N : Nat) where
  sme : Bool
  lanes : sme = true → N ∣ 16

/-- `kLsscCodingRounds` and `kLsscMomentum`, whose first is zero. -/
structure Schedule {F : Type} {N : Nat} (o : FloatOps F N) where
  rounds : Nat
  momentum : Nat → F
  first : momentum 0 = o.zero
  finite : ∀ it, o.isFinite (momentum it) = true

structure Args (F : Type) where
  m : Nat
  n : Nat
  atoms : Nat
  dictionary : Mat F
  gradient : Mat F
  lambdaScale : Option (Nat → F)
  lipschitz : F
  sigma : F

section Code

variable {F : Type} {N : Nat} (o : FloatOps F N) (b : Build N) (c : Schedule o) (p : Args F)

/-! ### Shared steps -/

/-- The mean of column `j` of the patches. -/
def columnMean (Y : Mat F) (j : Nat) : F :=
  let acc := (Tiles.starts N 0 p.m).foldl (fun (acc : Fin N → F) i l => o.add (acc l) (Y (i + l) j)) fun _ => o.zero
  let s := (List.range' (Tiles.stop N 0 p.m) (p.m - Tiles.stop N 0 p.m)).foldl (fun s i => o.add s (Y i j))
    (o.reduceSum acc)
  o.mul s (o.div o.one (o.lit p.m))

/-- The patches without their means. -/
def centered (Y : Mat F) : Mat F :=
  fun i j => if i < p.m ∧ j < p.n then o.sub (Y i j) (columnMean o p Y j) else Y i j

/-- The entry of a product, fused in the complete vectors (`Gemm.gemmNN_eq`). -/
def entry (rows inner : Nat) (A B : Mat F) (i j : Nat) : F :=
  Gemm.entryNN o.toOps rows inner i (A i) fun t => B t j

def lipschitz : F :=
  if !o.lt (o.lit (1 / 1000000)) p.lipschitz || !o.isFinite p.lipschitz then o.one else p.lipschitz

def mu : F := o.div (o.lit (9 / 10)) (lipschitz o p)

/-- The threshold before the factor of an atom. -/
def lambda : F :=
  let lam := o.mul (mu o p) (o.mul (o.abs p.sigma) (o.sqrt (o.lit p.n)))
  if o.lt lam o.zero then o.zero else lam

/-- `A + mu G` -/
def updated (A G : Mat F) : Mat F := fun i j =>
  if inVector N p.atoms i then o.mulAdd (mu o p) (G i j) (A i j) else o.add (A i j) (o.mul (mu o p) (G i j))

def norm2 (A : Mat F) (i : Nat) : F :=
  (List.range p.n).foldl (fun s j =>
    if inVector N p.atoms i then o.mulAdd (A i j) (A i j) s else o.add s (o.mul (A i j) (A i j))) o.zero

/-- What row `i` is multiplied by; the two loops differ where a norm is a NaN. -/
def scale (A : Mat F) (i : Nat) : F :=
  let nrm := o.sqrt (norm2 o p A i)
  let rowLam := match p.lambdaScale with
    | some factor => o.mul (lambda o p) (factor i)
    | none => lambda o p
  if inVector N p.atoms i then
    if o.lt rowLam nrm then o.sub o.one (o.div rowLam nrm) else o.zero
  else if o.le nrm rowLam then o.zero else o.sub o.one (o.div rowLam nrm)

def scaled (A : Mat F) : Mat F := fun i j => o.mul (A i j) (scale o p A i)

def kALim : F := o.lit 10000

/-- Whether element `x` of row `i` passes the check of the thresholded values. -/
def within (i : Nat) (x : F) : Bool :=
  if inVector N p.atoms i then o.isFinite x && o.le (o.abs x) (kALim o)
  else !(!o.isFinite x || o.lt (kALim o) (o.abs x))

def explodes (X : Mat F) : Bool :=
  (List.range p.n).any fun j => (List.range p.atoms).any fun i => !within o p i (X i j)

/-- The extrapolated point. -/
def extrapolated (beta : F) (X previous : Mat F) : Mat F :=
  fun i j => if o.eq beta o.zero then X i j else o.mulAdd beta (o.sub (X i j) (previous i j)) (X i j)

/-- The momentum of round `it`. -/
def beta (it : Nat) : F := if it + 1 = c.rounds then o.zero else c.momentum it

/-- A value of the result. -/
def output (i : Nat) (r mean : F) : F :=
  let value := o.add r mean
  if inVector N p.m i then
    if o.isFinite value && o.le (o.abs (o.sub value mean)) (o.lit 8) then value else mean
  else if !o.isFinite value || o.lt (o.lit 8) (o.abs r) then mean else value

/-! ### The work area -/

/-- The floats that the matrix leaf packs a factor in, 0 where it is not used. -/
def lsscGemmPackWorkFloats (sme : Bool) (m n k : Nat) : Nat :=
  if m < 64 ∨ 256 < m ∨ k < 64 ∨ 256 < k ∨ m % 16 ≠ 0 ∨ k % 16 ≠ 0 ∨ n < 128 ∨ sme = false then 0
  else max m k * min n 256

def meanArea : Area := ⟨0, p.n, p.n, 1⟩

def A : Area := ⟨p.n, p.atoms, p.atoms, p.n⟩

def R : Area := ⟨p.n + p.atoms * p.n, p.m, p.m, p.n⟩

def G : Area := ⟨p.n + p.atoms * p.n + p.m * p.n, p.atoms, p.atoms, p.n⟩

def previousArea : Area := ⟨p.n + p.atoms * p.n + p.m * p.n + p.atoms * p.n, p.atoms, p.atoms, p.n⟩

def gemmWork : Nat := p.n + p.atoms * p.n + p.m * p.n + p.atoms * p.n + p.atoms * p.n

/-- `lssc_reconstruct_prepared_work_floats` -/
def workFloats : Nat :=
  p.n + p.atoms * p.n + p.m * p.n + p.atoms * p.n + p.atoms * p.n +
    lsscGemmPackWorkFloats b.sme p.m p.n p.atoms + 16

/-- The columns of a product from `first` on, 256 at most, by the matrix leaf. -/
def smeColumns (cols inner : Nat) (A B : Mat F) (s : Areas.Memory Use F × Mat F) (first : Nat) :
    Option (Areas.Memory Use F × Mat F) := do
  let columns := min (cols - first) 256
  let area : Area := ⟨gemmWork p, columns, columns, inner⟩
  let mem ← Areas.store (workFloats b p) s.1 .pack area fun column row => B row (first + column)
  let packed ← Areas.load (workFloats b p) o.zero mem .pack area
  return (mem, fun i j =>
    if first ≤ j ∧ j < first + columns then
      Gemm.fused o.toOps inner (A i) fun t => packed (j - first) t
    else s.2 i j)

/-- `lssc_gemm_nn` -/
def lsscGemmNN (rows cols inner : Nat) (A B : Mat F) (mem : Areas.Memory Use F) : Option (Areas.Memory Use F × Mat F) :=
  let need := lsscGemmPackWorkFloats b.sme rows cols inner
  if need ≠ 0 ∧ need ≤ workFloats b p - gemmWork p then
    ((List.range ((cols + 255) / 256)).map fun x => x * 256).foldlM
      (smeColumns o b p cols inner A B) (mem, fun _ _ => o.zero)
  else some (mem, entry o rows inner A B)

/-- The atoms of the last product and what is needed for the next. -/
structure State (F : Type) where
  mem : Areas.Memory Use F
  active : List Nat
  livePrevious : Nat → Bool
  exploded : Bool

/-- `D A` into `R`, by the active atoms where they are few. -/
def product (s : State F) : Option (Areas.Memory Use F) := do
  let size := workFloats b p
  let coefficients ← Areas.load size o.zero s.mem .coefficients (A p)
  if s.active.length * 4 ≥ p.atoms * 3 then
    let r ← lsscGemmNN o b p p.m p.n p.atoms p.dictionary coefficients s.mem
    Areas.store size r.1 .product (R p) r.2
  else
    let count := s.active.length
    let area : Area := ⟨(G p).base, max count 1, count, p.n⟩
    let mem ← Areas.store size s.mem .packed area fun t j => coefficients (s.active.getD t 0) j
    let packed ← Areas.load size o.zero mem .packed area
    let r ← lsscGemmNN o b p p.m p.n count (fun i t => p.dictionary i (s.active.getD t 0)) packed mem
    Areas.store size r.1 .product (R p) r.2

/-- The gradient of round `it` into `G`. -/
def gradientStep (Y : Mat F) (it : Nat) (s : State F) : Option (Areas.Memory Use F) := do
  let size := workFloats b p
  if it = 0 then
    let r ← lsscGemmNN o b p p.atoms p.n p.m p.gradient Y s.mem
    Areas.store size r.1 .gradient (G p) r.2
  else
    let mem ← product o b p s
    let r ← Areas.load size o.zero mem .product (R p)
    let mem ← Areas.store size mem .residual (R p) fun i j => o.sub (Y i j) (r i j)
    let r ← Areas.load size o.zero mem .residual (R p)
    let r ← lsscGemmNN o b p p.atoms p.n p.m p.gradient r mem
    Areas.store size r.1 .gradient (G p) r.2

/-- The last iterate, read where there is a momentum. -/
def loadPrevious (beta : F) (mem : Areas.Memory Use F) : Option (Mat F) :=
  if o.eq beta o.zero then some fun _ _ => o.zero
  else Areas.load (workFloats b p) o.zero mem .previous (previousArea p)

/-- The threshold pass: the coefficients, the active atoms and whether a value has exploded. -/
def lsscUpdateGroupSoft (it : Nat) (mem : Areas.Memory Use F) : Option (Areas.Memory Use F × List Nat × Bool) := do
  let size := workFloats b p
  let a ← Areas.load size o.zero mem .coefficients (A p)
  let g ← Areas.load size o.zero mem .gradient (G p)
  let a := updated o p a g
  let active := (List.range p.atoms).filter fun i => !o.eq (scale o p a i) o.zero
  let x := scaled o p a
  let last ← loadPrevious o b p (beta o c it) mem
  let mem ← Areas.store size mem .coefficients (A p) (extrapolated o (beta o c it) x last)
  -- the last round has no `previous`
  let mem ← if it + 1 = c.rounds then some mem else Areas.store size mem .previous (previousArea p) x
  return (mem, active, explodes o p x)

/-- The atoms that may have a row that is not zero after round `it`. -/
def liveAtoms (it : Nat) (active : List Nat) (livePrevious : Nat → Bool) : List Nat :=
  if o.eq (beta o c it) o.zero then active
  else (List.range p.atoms).filter fun i => active.contains i || livePrevious i

/-- A round; none runs after one that exploded. -/
def codingRound (Y : Mat F) (s : State F) (it : Nat) : Option (State F) :=
  if s.exploded then some s
  else do
    let mem ← gradientStep o b p Y it s
    let r ← lsscUpdateGroupSoft o b c p it mem
    if r.2.2 then
      let mem ← Areas.store (workFloats b p) r.1 .coefficients (A p) fun _ _ => o.zero
      return ⟨mem, [], s.livePrevious, true⟩
    else if it + 1 = c.rounds then return ⟨r.1, r.2.1, s.livePrevious, false⟩
    else return ⟨r.1, liveAtoms o c p it r.2.1 s.livePrevious, fun i => r.2.1.contains i, false⟩

/-- The means stored and the coefficients cleared. -/
def start (Y : Mat F) (mem : Areas.Memory Use F) : Option (State F) := do
  let size := workFloats b p
  let mem ← Areas.store size mem .mean (meanArea p) fun j _ => columnMean o p Y j
  let mem ← Areas.store size mem .coefficients (A p) fun _ _ => o.zero
  return ⟨mem, List.range p.atoms, fun _ => false, false⟩

/-- The state after `count` rounds. -/
def codingRounds (Y : Mat F) (mem : Areas.Memory Use F) (count : Nat) : Option (State F) := do
  let s ← start o b p Y mem
  (List.range count).foldlM (codingRound o b c p (centered o p Y)) s

/-- The patches afterwards. -/
def lsscReconstructImpl (Y : Mat F) (mem : Areas.Memory Use F) : Option (Mat F) := do
  let size := workFloats b p
  let s ← codingRounds o b c p Y mem c.rounds
  let mem ← product o b p s
  let r ← Areas.load size o.zero mem .product (R p)
  let mean ← Areas.load size o.zero mem .mean (meanArea p)
  return fun i j => if i < p.m ∧ j < p.n then output o p i (r i j) (mean j 0) else Y i j

/-! ### The plain scheme -/

/-- The point the next round starts from, the last iterate and whether a value has exploded. -/
structure Plain (F : Type) where
  z : Mat F
  x : Mat F
  exploded : Bool

/-- `P (Y - D Z)` with all atoms -/
def plainGradient (Y z : Mat F) : Mat F :=
  entry o p.atoms p.m p.gradient
    (block o.zero p.m p.n fun i j => o.sub (Y i j) (entry o p.m p.atoms p.dictionary z i j))

def plainRound (Y : Mat F) (s : Plain F) (it : Nat) : Plain F :=
  if s.exploded then s
  else
    let a := updated o p s.z (plainGradient o p Y s.z)
    let x := block o.zero p.atoms p.n (scaled o p a)
    if explodes o p x then ⟨fun _ _ => o.zero, s.x, true⟩
    else ⟨block o.zero p.atoms p.n (extrapolated o (beta o c it) x s.x), x, false⟩

def plainRounds (Y : Mat F) (count : Nat) : Plain F :=
  (List.range count).foldl (plainRound o c p (centered o p Y)) ⟨fun _ _ => o.zero, fun _ _ => o.zero, false⟩

/-- The reconstruction, or the means where a value has exploded. -/
def plainResult (Y : Mat F) : Mat F := fun i j =>
  if i < p.m ∧ j < p.n then
    let s := plainRounds o c p Y c.rounds
    if s.exploded then columnMean o p Y j
    else output o p i (entry o p.m p.atoms p.dictionary s.z i j) (columnMean o p Y j)
  else Y i j

end Code

/-! ## Products that leave atoms out -/

/-- What is used of the arithmetic, the signs of zeros aside. -/
structure Laws {F : Type} {N : Nat} (o : FloatOps F N) : Prop where
  eq_zero : ∀ x, o.eq x o.zero = true ↔ x = o.zero
  mul_zero : ∀ x, o.isFinite x = true → o.mul x o.zero = o.zero
  mul_zero_finite : ∀ x, o.isFinite (o.mul x o.zero) = true → o.isFinite x = true
  mulAdd_zero : ∀ x acc, o.isFinite x = true → o.mulAdd x o.zero acc = acc
  add_zero : ∀ x, o.add x o.zero = x
  zero_add : ∀ x, o.add o.zero x = x
  sub_zero : ∀ x, o.sub x o.zero = x

section Sparse

variable {F : Type} {N : Nat} {o : FloatOps F N} {rows inner i j : Nat} {A B B' : Mat F}

/-- Rounds of a loop that change nothing can be left out. -/
theorem foldl_filter_skip {α σ : Type} {q : α → Bool} {f : σ → α → σ} {l : List α}
    (h : ∀ x ∈ l, q x = false → ∀ s, f s x = s) (s : σ) : (l.filter q).foldl f s = l.foldl f s := by
  induction l generalizing s with
  | nil => rfl
  | cons x l ih =>
    have hrest := ih fun y hy => h y (List.mem_cons_of_mem _ hy)
    rw [List.filter_cons, List.foldl_cons]
    cases hq : q x with
    | true => exact hrest _
    | false =>
      rw [h x List.mem_cons_self hq]
      exact hrest s

/-- A loop over the places of a list. -/
theorem foldl_places {σ : Type} (f : σ → Nat → σ) (l : List Nat) (s : σ) :
    (List.range l.length).foldl (fun s t => f s (l.getD t 0)) s = l.foldl f s := by
  have hmap : (List.range l.length).map (fun t => l.getD t 0) = l := by
    refine List.ext_getElem (by simp) fun k hk hk' => ?_
    simp only [List.getElem_map, List.getElem_range]
    simp [List.getD, List.getElem?_eq_getElem hk']
  conv_rhs => rw [← hmap]
  rw [List.foldl_map]

theorem entry_congr (h : ∀ t < inner, B t j = B' t j) :
    entry o rows inner A B i j = entry o rows inner A B' i j := by
  have hfold : ∀ f : F → Nat → F → F, (List.range inner).foldl (fun s t => f s t (B t j)) o.zero =
      (List.range inner).foldl (fun s t => f s t (B' t j)) o.zero := by
    intro f
    refine List.foldl_ext _ _ _ fun s t ht => ?_
    rw [h t (List.mem_range.mp ht)]
  unfold entry Gemm.entryNN
  split
  · exact hfold fun s t x => o.mulAdd (A i t) x s
  · exact hfold fun s t x => o.add s (o.mul (A i t) x)

/-- A product by the rows that may not be zero is the product by all. -/
theorem entry_sparse (laws : Laws o) (rows j : Nat) {q : Nat → Bool} (hA : ∀ t < inner, o.isFinite (A i t) = true)
    (hB : ∀ t < inner, q t = false → B t j = o.zero) :
    entry o rows ((List.range inner).filter q).length (fun i t => A i (((List.range inner).filter q).getD t 0))
      (fun t j => B (((List.range inner).filter q).getD t 0) j) i j = entry o rows inner A B i j := by
  unfold entry Gemm.entryNN
  split
  · refine (foldl_places (fun c t => o.mulAdd (A i t) (B t j) c) _ o.zero).trans ?_
    refine foldl_filter_skip (fun t ht hq acc => ?_) o.zero
    have ht := List.mem_range.mp ht
    rw [hB t ht hq, laws.mulAdd_zero _ _ (hA t ht)]
  · refine (foldl_places (fun s t => o.add s (o.mul (A i t) (B t j))) _ o.zero).trans ?_
    refine foldl_filter_skip (fun t ht hq s => ?_) o.zero
    have ht := List.mem_range.mp ht
    rw [hB t ht hq, laws.mul_zero _ (hA t ht), laws.add_zero]

/-- A product by a matrix of zeros. -/
theorem entry_zero (laws : Laws o) (hA : ∀ t < inner, o.isFinite (A i t) = true) :
    entry o rows inner A (fun _ _ => o.zero) i j = o.zero := by
  have h := entry_sparse laws rows j (q := fun _ => false) hA (B := fun _ _ => o.zero) fun _ _ _ => rfl
  rw [← h, List.filter_false]
  unfold entry Gemm.entryNN
  split <;> rfl

end Sparse

/-! ## The matrix leaf -/

section Leaf

variable {F : Type} {N : Nat} {o : FloatOps F N} {b : Build N} {p : Args F}

/-- Outside the room of the matrix leaf. -/
def OffPack (b : Build N) (p : Args F) (mem mem' : Areas.Memory Use F) : Prop :=
  ∀ x, x < gemmWork p ∨ workFloats b p ≤ x → mem' x = mem x

theorem smeColumns_eq {rows cols inner : Nat} {A B : Mat F} {s : Areas.Memory Use F × Mat F} (first : Nat)
    (hroom : max rows inner * min cols 256 ≤ workFloats b p - gemmWork p) :
    ∃ r, smeColumns o b p cols inner A B s first = some r ∧ OffPack b p s.1 r.1 ∧
      ∀ i j, r.2 i j = if first ≤ j ∧ j < first + min (cols - first) 256 then
        Gemm.fused o.toOps inner (A i) fun t => B t j else s.2 i j := by
  have hwork : gemmWork p ≤ workFloats b p := by
    unfold gemmWork workFloats
    omega
  have hstop : (⟨gemmWork p, min (cols - first) 256, min (cols - first) 256, inner⟩ : Area).stop ≤
      workFloats b p := by
    have hle : min (cols - first) 256 * inner ≤ min cols 256 * max rows inner :=
      Nat.mul_le_mul (by omega) (Nat.le_max_right rows inner)
    rw [Nat.mul_comm (min cols 256)] at hle
    simp only [Area.stop]
    omega
  obtain ⟨mem, hstore, hstored⟩ := store_eq s.1 Use.pack (fun column row => B row (first + column))
    (a := ⟨gemmWork p, min (cols - first) 256, min (cols - first) 256, inner⟩) (Nat.le_refl _) hstop
  unfold smeColumns
  simp only [hstore, hstored.holds.load_eq (z := o.zero) (Nat.le_refl _) hstop, Option.bind_eq_bind,
    Option.bind_some]
  refine ⟨_, rfl, fun x hx => hstored.off x (by simp only [Area.stop] at hstop ⊢; omega), fun i j => ?_⟩
  dsimp only
  split
  · rename_i hj
    unfold Gemm.fused
    refine List.foldl_ext _ _ _ fun s t ht => ?_
    dsimp only
    rw [block_in (by omega) (List.mem_range.mp ht), Nat.add_sub_cancel' hj.1]
  · rfl

/-- The blocks of columns, `count` of them. -/
theorem smeBlocks_eq {rows cols inner : Nat} (A B : Mat F) (mem : Areas.Memory Use F)
    (hroom : max rows inner * min cols 256 ≤ workFloats b p - gemmWork p)
    (count : Nat) : ∃ r, ((List.range count).map fun x => x * 256).foldlM
      (smeColumns o b p cols inner A B) (mem, fun _ _ => o.zero) = some r ∧ OffPack b p mem r.1 ∧
      ∀ i j, j < cols → j < count * 256 → r.2 i j = Gemm.fused o.toOps inner (A i) fun t => B t j := by
  induction count with
  | zero => exact ⟨_, rfl, fun _ _ => rfl, fun i j _ hj => by omega⟩
  | succ count ih =>
    obtain ⟨s, hs, hoff, hentries⟩ := ih
    obtain ⟨r, hr, hoff', hentries'⟩ := smeColumns_eq (o := o) (A := A) (B := B) (s := s) (count * 256) hroom
    refine ⟨r, ?_, fun x hx => (hoff' x hx).trans (hoff x hx), fun i j hj hcount => ?_⟩
    · rw [List.range_succ, List.map_append, List.foldlM_append, hs]
      simpa using hr
    · rw [hentries']
      split
      · rfl
      · rename_i hout
        rw [Nat.succ_mul] at hcount
        have hbefore : j < count * 256 := by
          by_contra hge
          have hlen : j - count * 256 < min (cols - count * 256) 256 := Nat.lt_min.mpr ⟨by omega, by omega⟩
          generalize min (cols - count * 256) 256 = width at hlen hout
          exact hout ⟨by omega, by omega⟩
        exact hentries i j hj hbefore

/-- Both kernels give the same entries, and the leaf keeps to its room. -/
theorem lsscGemmNN_eq (b : Build N) (p : Args F) (rows cols inner : Nat) (A B : Mat F) (mem : Areas.Memory Use F) :
    ∃ r, lsscGemmNN o b p rows cols inner A B mem = some r ∧
    OffPack b p mem r.1 ∧ ∀ i < rows, ∀ j < cols, r.2 i j = entry o rows inner A B i j := by
  unfold lsscGemmNN
  dsimp only
  split
  · rename_i hleaf
    have hform : b.sme = true ∧ rows % 16 = 0 ∧ lsscGemmPackWorkFloats b.sme rows cols inner =
        max rows inner * min cols 256 := by
      have hne := hleaf.1
      unfold lsscGemmPackWorkFloats at hne ⊢
      split at hne
      · exact absurd rfl hne
      · rename_i hshape
        simp only [not_or, Decidable.not_not, Bool.not_eq_false] at hshape
        rw [if_neg (by simp only [not_or, Decidable.not_not, Bool.not_eq_false]; exact hshape)]
        exact ⟨hshape.2.2.2.2.2.2.2, hshape.2.2.2.2.1, rfl⟩
    obtain ⟨r, hr, hoff, hentries⟩ := smeBlocks_eq (o := o) A B mem (hform.2.2 ▸ hleaf.2)
      ((cols + 255) / 256)
    refine ⟨r, hr, hoff, fun i hi j hj => ?_⟩
    -- every row lies in a whole vector
    have hwhole : rows / N * N = rows := by
      have hdvd : N ∣ rows := (b.lanes hform.1).trans (Nat.dvd_of_mod_eq_zero hform.2.1)
      exact Nat.div_mul_cancel hdvd
    rw [hentries i j hj (by omega), entry, Gemm.entryNN, if_pos (by omega)]
  · exact ⟨_, rfl, fun _ _ => rfl, fun _ _ _ _ => rfl⟩

end Leaf

/-! ## The products of a round -/

section Products

variable {F : Type} {N : Nat} {o : FloatOps F N} {b : Build N} {p : Args F} {mem mem' mem'' : Areas.Memory Use F}
  {Y z : Mat F} {s : State F}

/-- The means, the coefficients and the last iterate are where they were. -/
def Kept (p : Args F) (mem mem' : Areas.Memory Use F) : Prop :=
  ∀ x, x < (R p).base ∨ ((previousArea p).base ≤ x ∧ x < gemmWork p) → mem' x = mem x

theorem Kept.trans (h : Kept p mem mem') (h' : Kept p mem' mem'') : Kept p mem mem'' :=
  fun x hx => (h' x hx).trans (h x hx)

theorem OffPack.kept (h : OffPack b p mem mem') : Kept p mem mem' := by
  intro x hx
  refine h x (.inl ?_)
  simp only [R, previousArea, gemmWork] at hx ⊢
  omega

theorem stored_kept {u : Use} {a : Area} {f : Mat F} (h : Stored mem mem' u a f) (hlow : (R p).base ≤ a.base)
    (hhigh : a.stop ≤ (previousArea p).base) : Kept p mem mem' := fun x hx => h.off x (by omega)

theorem Kept.holds {u : Use} {a : Area} {f : Mat F} (h : Kept p mem mem') (hf : Holds mem u a f)
    (hld : a.rows ≤ a.ld)
    (ha : a.stop ≤ (R p).base ∨ ((previousArea p).base ≤ a.base ∧ a.stop ≤ gemmWork p)) :
    Holds mem' u a f := by
  intro i hi j hj
  have := Area.address_lt hld hi hj
  have := Area.base_le_address (a := a) (i := i) (j := j)
  rw [h _ (by omega)]
  exact hf i hi j hj

/-- The areas lie one behind the other. -/
theorem areas (b : Build N) (p : Args F) : (meanArea p).stop = (A p).base ∧ (A p).stop = (R p).base ∧
    (R p).stop = (G p).base ∧ (G p).stop = (previousArea p).base ∧ (previousArea p).stop = gemmWork p ∧
      gemmWork p ≤ workFloats b p := by
  refine ⟨?_, rfl, rfl, rfl, rfl, ?_⟩
  · simp [Area.stop, meanArea, A]
  · unfold gemmWork workFloats
    omega

/-- What a product by the active atoms is worth. -/
structure Active (p : Args F) (active : List Nat) (z : Mat F) : Prop where
  ordered : ∃ q : Nat → Bool, active = (List.range p.atoms).filter q
  left : ∀ k < p.atoms, k ∉ active → ∀ j < p.n, z k j = o.zero

def FiniteDictionary (o : FloatOps F N) (p : Args F) : Prop :=
  ∀ i < p.m, ∀ k < p.atoms, o.isFinite (p.dictionary i k) = true

theorem store_product (h : Kept p mem mem') {f g : Mat F} (hfg : ∀ i < p.m, ∀ j < p.n, f i j = g i j) :
    ∃ mem'', Areas.store (workFloats b p) mem' .product (R p) f = some mem'' ∧ Holds mem'' .product (R p) g ∧
      Kept p mem mem'' := by
  obtain ⟨-, -, hR, hG, hprev, hwork⟩ := areas b p
  have hGbase : (G p).base ≤ (G p).stop := Nat.le_add_right _ _
  have hpbase : (previousArea p).base ≤ (previousArea p).stop := Nat.le_add_right _ _
  obtain ⟨mem'', hstore, hstored⟩ := store_eq mem' Use.product f (Nat.le_refl _)
    (by omega : (R p).stop ≤ workFloats b p)
  exact ⟨mem'', hstore, hstored.holds.congr hfg, h.trans (stored_kept hstored (Nat.le_refl _) (by omega))⟩

/-- The product has all the rows in it. -/
theorem product_eq (laws : Laws o) (hD : FiniteDictionary o p) (hA : Holds s.mem .coefficients (A p) z)
    (hactive : Active (o := o) p s.active z) : ∃ mem', product o b p s = some mem' ∧
      Holds mem' .product (R p) (entry o p.m p.atoms p.dictionary z) ∧ Kept p s.mem mem' := by
  obtain ⟨hmean, hAstop, hR, hG, hprev, hwork⟩ := areas b p
  have hRbase : (R p).base ≤ (R p).stop := Nat.le_add_right _ _
  have hGbase : (G p).base ≤ (G p).stop := Nat.le_add_right _ _
  have hpbase : (previousArea p).base ≤ (previousArea p).stop := Nat.le_add_right _ _
  obtain ⟨⟨q, hq⟩, hleft⟩ := hactive
  have hblock : ∀ i < p.m, ∀ j < p.n,
      entry o p.m p.atoms p.dictionary (block o.zero p.atoms p.n z) i j =
        entry o p.m p.atoms p.dictionary z i j :=
    fun i _ j hj => entry_congr fun t ht => block_in ht hj
  have hload : Areas.load (workFloats b p) o.zero s.mem .coefficients (A p) = some (block o.zero p.atoms p.n z) :=
    hA.load_eq (Nat.le_refl _) (by omega)
  unfold product
  simp only [hload, Option.bind_eq_bind, Option.bind_some]
  split
  · obtain ⟨r, hr, hoff, hentries⟩ := lsscGemmNN_eq (o := o) b p p.m p.n p.atoms p.dictionary
      (block o.zero p.atoms p.n z) s.mem
    rw [hr, Option.bind_some]
    exact store_product hoff.kept fun i hi j hj => (hentries i hi j hj).trans (hblock i hi j hj)
  · have hcount : s.active.length ≤ p.atoms := by
      rw [hq]
      exact (List.length_filter_le _ _).trans (by simp)
    have hatoms : 1 ≤ p.atoms := by omega
    have hstop : (⟨(G p).base, max s.active.length 1, s.active.length, p.n⟩ : Area).stop ≤ (G p).stop := by
      have hle : max s.active.length 1 * p.n ≤ p.atoms * p.n := Nat.mul_le_mul_right _ (by omega)
      simp only [Area.stop, G] at hle ⊢
      omega
    have hsize : (⟨(G p).base, max s.active.length 1, s.active.length, p.n⟩ : Area).stop ≤ workFloats b p := by
      omega
    obtain ⟨mem₁, hstore, hstored⟩ := store_eq s.mem Use.packed
      (fun t j => block o.zero p.atoms p.n z (s.active.getD t 0) j) (Nat.le_max_left _ _) hsize
    have hkept : Kept p s.mem mem₁ := stored_kept hstored (by simp only; omega) (by omega)
    have hld : (⟨(G p).base, max s.active.length 1, s.active.length, p.n⟩ : Area).rows ≤
        (⟨(G p).base, max s.active.length 1, s.active.length, p.n⟩ : Area).ld := Nat.le_max_left _ _
    rw [hstore, Option.bind_some, hstored.holds.load_eq (z := o.zero) hld hsize, Option.bind_some]
    obtain ⟨r, hr, hoff, hentries⟩ := lsscGemmNN_eq (o := o) b p p.m p.n s.active.length
      (fun i t => p.dictionary i (s.active.getD t 0))
      (block o.zero s.active.length p.n fun t j => block o.zero p.atoms p.n z (s.active.getD t 0) j) mem₁
    rw [hr, Option.bind_some]
    refine store_product (hkept.trans hoff.kept) fun i hi j hj => ?_
    rw [hentries i hi j hj, ← hblock i hi j hj]
    have hsparse := entry_sparse laws p.m j (i := i) (A := p.dictionary) (q := q)
      (fun t ht => hD i hi t ht) (B := block o.zero p.atoms p.n z) (fun t ht hqt => by
        rw [block_in ht hj]
        refine hleft t ht (fun hmem => ?_) j hj
        rw [hq, List.mem_filter, hqt] at hmem
        exact absurd hmem.2 (by decide))
    rw [← hq] at hsparse
    rw [← hsparse]
    exact entry_congr fun t ht => block_in ht hj

/-- The gradient that the threshold pass takes is that of the plain scheme. -/
theorem gradientStep_eq (laws : Laws o) (hD : FiniteDictionary o p) (hA : Holds s.mem .coefficients (A p) z)
    (hactive : Active (o := o) p s.active z) {it : Nat} (hzero : it = 0 → z = fun _ _ => o.zero) :
    ∃ mem', gradientStep o b p Y it s = some mem' ∧ Holds mem' .gradient (G p) (plainGradient o p Y z) ∧
      Kept p s.mem mem' := by
  obtain ⟨hmean, hAstop, hR, hG, hprev, hwork⟩ := areas b p
  have hRbase : (R p).base ≤ (R p).stop := Nat.le_add_right _ _
  have hGbase : (G p).base ≤ (G p).stop := Nat.le_add_right _ _
  have hpbase : (previousArea p).base ≤ (previousArea p).stop := Nat.le_add_right _ _
  have hlast : ∀ {mem₁ : Areas.Memory Use F} {f : Mat F}, Kept p s.mem mem₁ →
      (∀ i < p.atoms, ∀ j < p.n, f i j = plainGradient o p Y z i j) →
      ∃ mem', Areas.store (workFloats b p) mem₁ .gradient (G p) f = some mem' ∧
        Holds mem' .gradient (G p) (plainGradient o p Y z) ∧ Kept p s.mem mem' := by
    intro mem₁ f hkept hf
    obtain ⟨mem', hstore, hstored⟩ := store_eq mem₁ Use.gradient f (Nat.le_refl _)
      (by omega : (G p).stop ≤ workFloats b p)
    exact ⟨mem', hstore, hstored.holds.congr hf, hkept.trans (stored_kept hstored (by omega) (by omega))⟩
  unfold gradientStep
  dsimp only
  split
  · rename_i hit
    obtain ⟨r, hr, hoff, hentries⟩ := lsscGemmNN_eq (o := o) b p p.atoms p.n p.m p.gradient Y s.mem
    simp only [hr, Option.bind_eq_bind, Option.bind_some]
    refine hlast hoff.kept fun i hi j hj => ?_
    rw [hentries i hi j hj, plainGradient]
    refine entry_congr fun t ht => ?_
    rw [block_in ht hj, hzero hit, entry_zero laws fun k hk => hD t ht k hk, laws.sub_zero]
  · obtain ⟨mem₁, hproduct, hholds, hkept⟩ := product_eq (b := b) laws hD hA hactive
    have hsize : (R p).stop ≤ workFloats b p := by omega
    obtain ⟨mem₂, hstore, hstored⟩ := store_eq mem₁ Use.residual
      (fun i j => o.sub (Y i j) (block o.zero p.m p.n (entry o p.m p.atoms p.dictionary z) i j)) (Nat.le_refl _) hsize
    have hload : Areas.load (workFloats b p) o.zero mem₁ .product (R p) =
        some (block o.zero p.m p.n (entry o p.m p.atoms p.dictionary z)) := hholds.load_eq (Nat.le_refl _) hsize
    have hload' : Areas.load (workFloats b p) o.zero mem₂ .residual (R p) = some (block o.zero p.m p.n fun i j =>
        o.sub (Y i j) (block o.zero p.m p.n (entry o p.m p.atoms p.dictionary z) i j)) :=
      hstored.holds.load_eq (Nat.le_refl _) hsize
    obtain ⟨r, hr, hoff, hentries⟩ := lsscGemmNN_eq (o := o) b p p.atoms p.n p.m p.gradient
      (block o.zero p.m p.n fun i j =>
        o.sub (Y i j) (block o.zero p.m p.n (entry o p.m p.atoms p.dictionary z) i j)) mem₂
    simp only [hproduct, hload, hstore, hload', hr, Option.bind_eq_bind, Option.bind_some]
    refine hlast ((hkept.trans (stored_kept hstored (Nat.le_refl _) (by omega))).trans hoff.kept)
      fun i hi j hj => ?_
    rw [hentries i hi j hj, plainGradient]
    refine entry_congr fun t ht => ?_
    rw [block_in ht hj, block_in ht hj, block_in ht hj]

end Products

/-! ## The threshold pass -/

section Threshold

variable {F : Type} {N : Nat} {o : FloatOps F N} {b : Build N} {c : Schedule o} {p : Args F} {mem : Areas.Memory Use F}
  {a a' z g x x' y y' : Mat F} {it : Nat}

/-- Matrices that agree where there are coefficients. -/
def Same (p : Args F) (a a' : Mat F) : Prop := ∀ i < p.atoms, ∀ j < p.n, a i j = a' i j

theorem scale_congr (h : Same p a a') {i : Nat} (hi : i < p.atoms) : scale o p a i = scale o p a' i := by
  have hnorm : norm2 o p a i = norm2 o p a' i := by
    refine List.foldl_ext _ _ _ fun s j hj => ?_
    rw [h i hi j (List.mem_range.mp hj)]
  rw [scale, scale, hnorm]

theorem scaled_congr (h : Same p a a') : Same p (scaled o p a) (scaled o p a') := by
  intro i hi j hj
  rw [scaled, scaled, h i hi j hj, scale_congr h hi]

theorem explodes_congr (h : Same p x x') : explodes o p x = explodes o p x' := by
  unfold explodes
  rw [Bool.eq_iff_iff]
  simp only [List.any_eq_true, List.mem_range]
  constructor
  · rintro ⟨j, hj, i, hi, hout⟩
    exact ⟨j, hj, i, hi, h i hi j hj ▸ hout⟩
  · rintro ⟨j, hj, i, hi, hout⟩
    exact ⟨j, hj, i, hi, (h i hi j hj).symm ▸ hout⟩

theorem updated_block : Same p (updated o p (block o.zero p.atoms p.n z) (block o.zero p.atoms p.n g))
    (updated o p z g) := by
  intro i hi j hj
  rw [updated, updated, block_in hi hj, block_in hi hj]

theorem extrapolated_congr (beta : F) (hx : Same p x x') (hy : o.eq beta o.zero = false → Same p y y') :
    Same p (extrapolated o beta x y) (extrapolated o beta x' y') := by
  intro i hi j hj
  unfold extrapolated
  split
  · exact hx i hi j hj
  · rename_i hbeta
    rw [hx i hi j hj, hy (Bool.not_eq_true _ ▸ hbeta) i hi j hj]

theorem within_finite {i : Nat} {v : F} (h : within o p i v = true) : o.isFinite v = true := by
  unfold within at h
  split at h
  · exact (Bool.and_eq_true_iff.mp h).1
  · simp only [Bool.not_eq_true', Bool.or_eq_false_iff, Bool.not_eq_false'] at h
    exact h.1

/-- Where no value has exploded, a row whose scale is zero is zero. -/
theorem scaled_zero (laws : Laws o) (h : explodes o p (scaled o p a) = false) {i j : Nat} (hi : i < p.atoms)
    (hj : j < p.n) (hscale : scale o p a i = o.zero) : scaled o p a i j = o.zero := by
  have hwithin : within o p i (scaled o p a i j) = true := by
    by_contra hout
    rw [explodes, List.any_eq_false] at h
    refine h j (List.mem_range.mpr hj) (List.any_eq_true.mpr ⟨i, List.mem_range.mpr hi, ?_⟩)
    rw [Bool.not_eq_true] at hout
    rw [hout]
    rfl
  have hfinite := within_finite hwithin
  rw [scaled, hscale] at hfinite ⊢
  exact laws.mul_zero _ (laws.mul_zero_finite _ hfinite)

/-- What the pass leaves in the work area. -/
structure Passed (o : FloatOps F N) (c : Schedule o) (p : Args F) (it : Nat) (mem mem' : Areas.Memory Use F) (x y : Mat F) :
    Prop where
  coefficients : Holds mem' .coefficients (A p) (extrapolated o (beta o c it) x y)
  previous : it + 1 ≠ c.rounds → Holds mem' .previous (previousArea p) x
  mean : ∀ f, Holds mem .mean (meanArea p) f → Holds mem' .mean (meanArea p) f

theorem lsscUpdateGroupSoft_eq (hz : Holds mem .coefficients (A p) z) (hg : Holds mem .gradient (G p) g)
    (hy : o.eq (beta o c it) o.zero = false → Holds mem .previous (previousArea p) y) :
    ∃ mem', lsscUpdateGroupSoft o b c p it mem = some (mem',
      (List.range p.atoms).filter (fun i => !o.eq (scale o p (updated o p z g) i) o.zero),
        explodes o p (scaled o p (updated o p z g))) ∧
      Passed o c p it mem mem' (scaled o p (updated o p z g)) y := by
  obtain ⟨hmean, hAstop, hR, hG, hprev, hwork⟩ := areas b p
  have hAbase : (A p).base ≤ (A p).stop := Nat.le_add_right _ _
  have hRbase : (R p).base ≤ (R p).stop := Nat.le_add_right _ _
  have hGbase : (G p).base ≤ (G p).stop := Nat.le_add_right _ _
  have hpbase : (previousArea p).base ≤ (previousArea p).stop := Nat.le_add_right _ _
  have hloadz : Areas.load (workFloats b p) o.zero mem .coefficients (A p) = some (block o.zero p.atoms p.n z) :=
    hz.load_eq (Nat.le_refl _) (by omega)
  have hloadg : Areas.load (workFloats b p) o.zero mem .gradient (G p) = some (block o.zero p.atoms p.n g) :=
    hg.load_eq (Nat.le_refl _) (by omega)
  have hsame : Same p (updated o p (block o.zero p.atoms p.n z) (block o.zero p.atoms p.n g)) (updated o p z g) :=
    updated_block
  obtain ⟨last, hlast, hlasty⟩ : ∃ last, loadPrevious o b p (beta o c it) mem = some last ∧
      (o.eq (beta o c it) o.zero = false → Same p last y) := by
    unfold loadPrevious
    split
    · rename_i hbeta
      exact ⟨_, rfl, fun h => absurd (hbeta.symm.trans h) (by decide)⟩
    · rename_i hbeta
      exact ⟨_, (hy (Bool.not_eq_true _ ▸ hbeta)).load_eq (Nat.le_refl _) (by omega),
        fun _ i hi j hj => block_in hi hj⟩
  obtain ⟨mem₁, hstore, hstored⟩ := store_eq mem Use.coefficients
    (extrapolated o (beta o c it) (scaled o p (updated o p (block o.zero p.atoms p.n z)
      (block o.zero p.atoms p.n g))) last) (Nat.le_refl _) (by omega : (A p).stop ≤ workFloats b p)
  have hcoefficients := hstored.holds.congr (extrapolated_congr (beta o c it) (scaled_congr hsame) hlasty)
  obtain ⟨mem₂, hstore', hstored'⟩ := store_eq mem₁ Use.previous
    (scaled o p (updated o p (block o.zero p.atoms p.n z) (block o.zero p.atoms p.n g))) (Nat.le_refl _)
    (by omega : (previousArea p).stop ≤ workFloats b p)
  have hactive : (List.range p.atoms).filter (fun i => !o.eq (scale o p (updated o p (block o.zero p.atoms p.n z)
      (block o.zero p.atoms p.n g)) i) o.zero) =
      (List.range p.atoms).filter fun i => !o.eq (scale o p (updated o p z g) i) o.zero :=
    List.filter_congr fun i hi => by rw [scale_congr hsame (List.mem_range.mp hi)]
  have hexplodes := explodes_congr (o := o) (scaled_congr (o := o) hsame)
  unfold lsscUpdateGroupSoft
  simp only [hloadz, hloadg, hlast, hstore, Option.bind_eq_bind, Option.bind_some, hactive, hexplodes]
  split
  · rename_i hround
    exact ⟨mem₁, rfl, hcoefficients, fun h => absurd hround h,
      fun f hf => hf.apart (Nat.le_refl _) hstored.off (.inl (by omega))⟩
  · rw [hstore', Option.bind_some]
    exact ⟨mem₂, rfl, hcoefficients.apart (Nat.le_refl _) hstored'.off (.inl (by omega)),
      fun _ => hstored'.holds.congr (scaled_congr hsame),
      fun f hf => (hf.apart (Nat.le_refl _) hstored.off (.inl (by omega))).apart (Nat.le_refl _) hstored'.off
        (.inl (by omega))⟩

end Threshold

/-! ## The rounds -/

section Rounds

variable {F : Type} {N : Nat} {o : FloatOps F N} {b : Build N} {c : Schedule o} {p : Args F} {Y : Mat F}
  {s : State F} {pl : Plain F} {it : Nat}

/-- After `count` rounds the work area has the point and the iterate of the plain scheme, and every
atom that is left out has a row of zeros. -/
structure Tracks (o : FloatOps F N) (c : Schedule o) (p : Args F) (Y : Mat F) (count : Nat) (s : State F)
    (pl : Plain F) : Prop where
  exploded : s.exploded = pl.exploded
  mean : Holds s.mem .mean (meanArea p) fun j _ => columnMean o p Y j
  coefficients : Holds s.mem .coefficients (A p) pl.z
  active : Active (o := o) p s.active pl.z
  first : count = 0 → pl.z = fun _ _ => o.zero
  previous : s.exploded = false → 0 < count → count < c.rounds → Holds s.mem .previous (previousArea p) pl.x
  live : s.exploded = false → 0 < count → count < c.rounds →
    ∀ k < p.atoms, s.livePrevious k = false → ∀ j < p.n, pl.x k j = o.zero
  cleared : s.exploded = true → s.active = [] ∧ pl.z = fun _ _ => o.zero

theorem start_tracks (mem : Areas.Memory Use F) : ∃ s, start o b p Y mem = some s ∧
    Tracks o c p Y 0 s ⟨fun _ _ => o.zero, fun _ _ => o.zero, false⟩ := by
  obtain ⟨hmean, hAstop, hR, hG, hprev, hwork⟩ := areas b p
  have hAbase : (A p).base ≤ (A p).stop := Nat.le_add_right _ _
  have hRbase : (R p).base ≤ (R p).stop := Nat.le_add_right _ _
  have hGbase : (G p).base ≤ (G p).stop := Nat.le_add_right _ _
  have hpbase : (previousArea p).base ≤ (previousArea p).stop := Nat.le_add_right _ _
  obtain ⟨mem₁, hstore, hstored⟩ := store_eq mem Use.mean (fun j _ => columnMean o p Y j) (Nat.le_refl _)
    (by omega : (meanArea p).stop ≤ workFloats b p)
  obtain ⟨mem₂, hstore', hstored'⟩ := store_eq mem₁ Use.coefficients (fun _ _ => o.zero) (Nat.le_refl _)
    (by omega : (A p).stop ≤ workFloats b p)
  unfold start
  simp only [hstore, hstore', Option.bind_eq_bind, Option.bind_some]
  refine ⟨_, rfl, rfl, ?_, hstored'.holds, ⟨⟨fun _ => true, by rw [List.filter_true]⟩, fun _ _ _ _ _ => rfl⟩,
    fun _ => rfl, fun _ h => absurd h (Nat.lt_irrefl 0), fun _ h => absurd h (Nat.lt_irrefl 0), nofun⟩
  exact hstored.holds.apart (Nat.le_refl _) hstored'.off (.inl (by omega))

theorem beta_finite (laws : Laws o) (h : o.eq (beta o c it) o.zero = false) :
    o.isFinite (beta o c it) = true ∧ 0 < it ∧ it + 1 ≠ c.rounds := by
  have hlast : it + 1 ≠ c.rounds := by
    intro hlast
    rw [beta, if_pos hlast, (laws.eq_zero o.zero).mpr rfl] at h
    exact absurd h (by decide)
  rw [beta, if_neg hlast] at h ⊢
  refine ⟨c.finite it, Nat.pos_of_ne_zero ?_, hlast⟩
  rintro rfl
  rw [c.first, (laws.eq_zero o.zero).mpr rfl] at h
  exact absurd h (by decide)

/-- A row of zeros in both iterates is one in the extrapolated point. -/
theorem extrapolated_zero (laws : Laws o) {x y : Mat F} {k j : Nat} (hx : x k j = o.zero)
    (hy : o.eq (beta o c it) o.zero = false → y k j = o.zero) :
    extrapolated o (beta o c it) x y k j = o.zero := by
  unfold extrapolated
  split
  · exact hx
  · rename_i hbeta
    have hbeta := Bool.not_eq_true _ ▸ hbeta
    rw [hx, hy hbeta, laws.sub_zero, laws.mulAdd_zero _ _ (beta_finite laws hbeta).1]

theorem codingRound_tracks (laws : Laws o) (hD : FiniteDictionary o p) (h : Tracks o c p Y it s pl)
    (hit : it < c.rounds) : ∃ s', codingRound o b c p (centered o p Y) s it = some s' ∧
      Tracks o c p Y (it + 1) s' (plainRound o c p (centered o p Y) pl it) := by
  obtain ⟨hmean, hAstop, hR, hG, hprev, hwork⟩ := areas b p
  have hAbase : (A p).base ≤ (A p).stop := Nat.le_add_right _ _
  have hRbase : (R p).base ≤ (R p).stop := Nat.le_add_right _ _
  have hGbase : (G p).base ≤ (G p).stop := Nat.le_add_right _ _
  have hpbase : (previousArea p).base ≤ (previousArea p).stop := Nat.le_add_right _ _
  unfold codingRound plainRound
  cases hexploded : s.exploded with
  | true =>
    rw [if_pos rfl, if_pos (h.exploded ▸ hexploded)]
    exact ⟨s, rfl, h.exploded, h.mean, h.coefficients, h.active, fun h => absurd h (by omega),
      fun hno => absurd (hno.symm.trans hexploded) (by decide),
      fun hno => absurd (hno.symm.trans hexploded) (by decide), h.cleared⟩
  | false =>
    have hplain : ¬pl.exploded = true := by
      rw [← h.exploded, hexploded]
      decide
    rw [if_neg (by decide), if_neg hplain]
    obtain ⟨mem₁, hgradient, hG', hkept⟩ := gradientStep_eq (b := b) (Y := centered o p Y) laws hD h.coefficients
      h.active h.first
    have hcoefficients : Holds mem₁ .coefficients (A p) pl.z :=
      hkept.holds h.coefficients (Nat.le_refl _) (.inl (by omega))
    have hmean₁ : Holds mem₁ .mean (meanArea p) fun j _ => columnMean o p Y j :=
      hkept.holds h.mean (Nat.le_refl _) (.inl (by omega))
    have hprevious : o.eq (beta o c it) o.zero = false → Holds mem₁ .previous (previousArea p) pl.x := by
      intro hbeta
      exact hkept.holds (h.previous hexploded (beta_finite laws hbeta).2.1 hit) (Nat.le_refl _)
        (.inr ⟨Nat.le_refl _, by omega⟩)
    obtain ⟨mem₂, hupdate, hpassed⟩ := lsscUpdateGroupSoft_eq (b := b) hcoefficients hG' hprevious
    generalize ha : updated o p pl.z (plainGradient o p (centered o p Y) pl.z) = a at hupdate hpassed
    have hblock : Same p (scaled o p a) (block o.zero p.atoms p.n (scaled o p a)) :=
      fun i hi j hj => (block_in hi hj).symm
    simp only [hgradient, hupdate, Option.bind_eq_bind, Option.bind_some, ← explodes_congr hblock]
    cases hout : explodes o p (scaled o p a) with
    | true =>
      obtain ⟨mem₃, hstore, hstored⟩ := store_eq mem₂ Use.coefficients (fun _ _ => o.zero) (Nat.le_refl _)
        (by omega : (A p).stop ≤ workFloats b p)
      rw [if_pos rfl, if_pos rfl, hstore, Option.bind_some]
      refine ⟨_, rfl, rfl, ?_, hstored.holds, ⟨⟨fun _ => false, by rw [List.filter_false]⟩, fun _ _ _ _ _ => rfl⟩,
        fun h => absurd h (by omega), nofun, nofun, fun _ => ⟨rfl, rfl⟩⟩
      exact (hpassed.mean _ hmean₁).apart (Nat.le_refl _) hstored.off (.inl (by omega))
    | false =>
      simp only [Bool.false_eq_true, if_false]
      -- the rows that the threshold leaves out
      have hrow : ∀ k < p.atoms, k ∉ (List.range p.atoms).filter (fun i => !o.eq (scale o p a i) o.zero) →
          ∀ j < p.n, scaled o p a k j = o.zero := by
        intro k hk hnot j hj
        refine scaled_zero laws hout hk hj ((laws.eq_zero _).mp ?_)
        by_contra hne
        refine hnot (List.mem_filter.mpr ⟨List.mem_range.mpr hk, ?_⟩)
        rw [Bool.not_eq_true] at hne
        rw [hne]
        rfl
      have hz : ∀ k < p.atoms, ∀ j < p.n, block o.zero p.atoms p.n
          (extrapolated o (beta o c it) (block o.zero p.atoms p.n (scaled o p a)) pl.x) k j =
            extrapolated o (beta o c it) (scaled o p a) pl.x k j := by
        intro k hk j hj
        rw [block_in hk hj]
        exact (extrapolated_congr (beta o c it) hblock (fun _ _ _ _ _ => rfl) k hk j hj).symm
      have hcoefficients' : Holds mem₂ .coefficients (A p) (block o.zero p.atoms p.n
          (extrapolated o (beta o c it) (block o.zero p.atoms p.n (scaled o p a)) pl.x)) :=
        hpassed.coefficients.congr fun i hi j hj => (hz i hi j hj).symm
      by_cases hlast : it + 1 = c.rounds
      · rw [if_pos hlast]
        refine ⟨_, rfl, rfl, hpassed.mean _ hmean₁, hcoefficients', ⟨⟨_, rfl⟩, fun k hk hnot j hj => ?_⟩,
          fun h => absurd h (by omega), fun _ _ h => absurd h (by omega), fun _ _ h => absurd h (by omega), nofun⟩
        refine (hz k hk j hj).trans (extrapolated_zero laws (hrow k hk hnot j hj) fun hbeta => ?_)
        exact absurd hlast (beta_finite laws hbeta).2.2
      · rw [if_neg hlast]
        refine ⟨_, rfl, rfl, hpassed.mean _ hmean₁, hcoefficients', ⟨?_, fun k hk hnot j hj => ?_⟩,
          fun h => absurd h (by omega), fun _ _ _ => (hpassed.previous hlast).congr hblock,
          fun _ _ _ k hk hnot j hj => ?_, nofun⟩
        · unfold liveAtoms
          split
          · exact ⟨_, rfl⟩
          · exact ⟨_, rfl⟩
        · refine (hz k hk j hj).trans ?_
          unfold liveAtoms at hnot
          split at hnot
          · rename_i hbeta
            exact extrapolated_zero laws (hrow k hk hnot j hj) fun h => absurd (hbeta.symm.trans h) (by decide)
          · rename_i hbeta
            have hbeta := Bool.not_eq_true _ ▸ hbeta
            rw [List.mem_filter, not_and, Bool.or_eq_true, not_or] at hnot
            obtain ⟨hnow, hbefore⟩ := hnot (List.mem_range.mpr hk)
            refine extrapolated_zero laws (hrow k hk (fun hmem => hnow ?_) j hj) fun _ => ?_
            · exact List.contains_iff_mem.mpr hmem
            · exact h.live hexploded (beta_finite laws hbeta).2.1 hit k hk (Bool.not_eq_true _ ▸ hbefore) j hj
        · dsimp only
          rw [block_in hk hj]
          refine hrow k hk (fun hmem => ?_) j hj
          have hcontains := List.contains_iff_mem.mpr hmem
          exact absurd (hnot.symm.trans hcontains) (by decide)

theorem codingRounds_tracks (laws : Laws o) (hD : FiniteDictionary o p) (mem : Areas.Memory Use F) (count : Nat)
    (hcount : count ≤ c.rounds) :
    ∃ s, codingRounds o b c p Y mem count = some s ∧ Tracks o c p Y count s (plainRounds o c p Y count) := by
  obtain ⟨s₀, hstart, htracks⟩ := start_tracks (o := o) (b := b) (c := c) (p := p) (Y := Y) mem
  have hrun : ∀ count ≤ c.rounds, ∃ s,
      (List.range count).foldlM (codingRound o b c p (centered o p Y)) s₀ = some s ∧
      Tracks o c p Y count s (plainRounds o c p Y count) := by
    intro count
    induction count with
    | zero => exact fun _ => ⟨s₀, rfl, htracks⟩
    | succ count ih =>
      intro hcount
      obtain ⟨s, hs, hs'⟩ := ih (by omega)
      obtain ⟨s', hround, hs''⟩ := codingRound_tracks (b := b) laws hD hs' (by omega)
      refine ⟨s', ?_, ?_⟩
      · rw [List.range_succ, List.foldlM_append, hs]
        simpa using hround
      · rw [plainRounds, List.range_succ, List.foldl_append]
        exact hs''
  obtain ⟨s, hs, hs'⟩ := hrun count hcount
  refine ⟨s, ?_, hs'⟩
  rw [codingRounds, hstart]
  exact hs

/-- Once a value has exploded, no round changes anything. -/
theorem plainRounds_exploded {count count' : Nat} (hle : count ≤ count')
    (h : (plainRounds o c p Y count).exploded = true) : plainRounds o c p Y count' = plainRounds o c p Y count := by
  induction count' with
  | zero =>
    obtain rfl : count = 0 := by omega
    rfl
  | succ count' ih =>
    by_cases heq : count = count' + 1
    · rw [heq]
    · have hbefore := ih (by omega)
      rw [plainRounds, List.range_succ, List.foldl_append]
      change plainRound o c p (centered o p Y) (plainRounds o c p Y count') count' = _
      rw [hbefore, plainRound, if_pos h]

/-- A patch without coefficients becomes its mean. -/
theorem output_zero (laws : Laws o) (i : Nat) (mean : F) : output o p i o.zero mean = mean := by
  unfold output
  rw [laws.zero_add]
  split
  · exact ite_self _
  · exact ite_self _

theorem lsscReconstructImpl_eq (laws : Laws o) (hD : FiniteDictionary o p) (mem : Areas.Memory Use F) :
    lsscReconstructImpl o b c p Y mem = some (plainResult o c p Y) := by
  obtain ⟨hmean, hAstop, hR, hG, hprev, hwork⟩ := areas b p
  have hAbase : (A p).base ≤ (A p).stop := Nat.le_add_right _ _
  have hRbase : (R p).base ≤ (R p).stop := Nat.le_add_right _ _
  have hGbase : (G p).base ≤ (G p).stop := Nat.le_add_right _ _
  have hpbase : (previousArea p).base ≤ (previousArea p).stop := Nat.le_add_right _ _
  obtain ⟨s, hs, htracks⟩ := codingRounds_tracks (b := b) (Y := Y) laws hD mem c.rounds (Nat.le_refl _)
  obtain ⟨mem₁, hproduct, hholds, hkept⟩ := product_eq (b := b) laws hD htracks.coefficients htracks.active
  have hloadR : Areas.load (workFloats b p) o.zero mem₁ .product (R p) =
      some (block o.zero p.m p.n (entry o p.m p.atoms p.dictionary (plainRounds o c p Y c.rounds).z)) :=
    hholds.load_eq (Nat.le_refl _) (by omega)
  have hloadmean : Areas.load (workFloats b p) o.zero mem₁ .mean (meanArea p) =
      some (block o.zero p.n 1 fun j _ => columnMean o p Y j) :=
    (hkept.holds htracks.mean (Nat.le_refl _) (.inl (by omega))).load_eq (Nat.le_refl _) (by omega)
  unfold lsscReconstructImpl
  simp only [hs, hproduct, hloadR, hloadmean, Option.bind_eq_bind, Option.bind_some]
  refine congrArg some (funext fun i => funext fun j => ?_)
  unfold plainResult
  split
  · rename_i hin
    rw [block_in hin.1 hin.2, block_in hin.2 Nat.one_pos]
    dsimp only
    split
    · rename_i hexploded
      rw [(htracks.cleared (htracks.exploded ▸ hexploded)).2, entry_zero laws fun t ht => hD i hin.1 t ht,
        output_zero laws]
    · rfl
  · rfl

/-- The value of row `i` and patch `j` that the pass of the next round checks. -/
def thresholded (o : FloatOps F N) (p : Args F) (Y : Mat F) (s : Plain F) : Mat F :=
  scaled o p (updated o p s.z (plainGradient o p (centered o p Y) s.z))

theorem plainRounds_explodes {it i j : Nat} (hit : it < c.rounds) (hi : i < p.atoms) (hj : j < p.n)
    (hout : within o p i (thresholded o p Y (plainRounds o c p Y it) i j) = false) :
    (plainRounds o c p Y c.rounds).exploded = true := by
  have hnext : (plainRounds o c p Y (it + 1)).exploded = true := by
    rw [plainRounds, List.range_succ, List.foldl_append]
    change (plainRound o c p (centered o p Y) (plainRounds o c p Y it) it).exploded = true
    unfold plainRound
    split
    · assumption
    · have hexplodes :
          explodes o p (block o.zero p.atoms p.n (thresholded o p Y (plainRounds o c p Y it))) = true := by
        refine List.any_eq_true.mpr ⟨j, List.mem_range.mpr hj, ?_⟩
        refine List.any_eq_true.mpr ⟨i, List.mem_range.mpr hi, ?_⟩
        rw [block_in hi hj, hout]
        rfl
      unfold thresholded at hexplodes
      dsimp only
      rw [if_pos hexplodes]
  rw [plainRounds_exploded hit hnext]
  exact hnext

theorem not_within {i : Nat} {x : F}
    (h : o.isFinite x = false ∨ (o.lt (kALim o) (o.abs x) = true ∧ o.le (o.abs x) (kALim o) = false)) :
    within o p i x = false := by
  unfold within
  rcases h with h | ⟨hlt, hle⟩
  · split
    · rw [h, Bool.false_and]
    · rw [h]
      rfl
  · split
    · rw [hle, Bool.and_false]
    · rw [hlt, Bool.or_true]
      rfl

/-- On a dictionary of finite values the coding computes the plain scheme round by round, in a work
area that is big enough and where nothing is read that another use has overwritten. -/
theorem lsscReconstructImpl_plain {F : Type} {N : Nat} (o : FloatOps F N) (laws : Laws o) (b : Build N)
    (c : Schedule o) (p : Args F) (hD : FiniteDictionary o p) (Y : Mat F) (mem : Areas.Memory Use F) :
    (∀ count ≤ c.rounds, ∃ s, codingRounds o b c p Y mem count = some s ∧
      Tracks o c p Y count s (plainRounds o c p Y count)) ∧
    lsscReconstructImpl o b c p Y mem = some (plainResult o c p Y) ∧
    ∀ it < c.rounds, ∀ i < p.atoms, ∀ j < p.n, ∀ x, x = thresholded o p Y (plainRounds o c p Y it) i j →
      o.isFinite x = false ∨ (o.lt (kALim o) (o.abs x) = true ∧ o.le (o.abs x) (kALim o) = false) →
      ∀ row < p.m, ∀ col < p.n, plainResult o c p Y row col = columnMean o p Y col := by
  refine ⟨fun count hcount => codingRounds_tracks laws hD mem count hcount, lsscReconstructImpl_eq laws hD mem,
    fun it hit i hi j hj x hx hout row hrow col hcol => ?_⟩
  have hexploded := plainRounds_explodes (o := o) (c := c) (Y := Y) hit hi hj (hx ▸ not_within hout)
  rw [plainResult, if_pos ⟨hrow, hcol⟩]
  dsimp only
  rw [if_pos hexploded]

end Rounds

/-! ## A dictionary with a value that is not finite -/

attribute [local instance] Numerals.pair

theorem some_zero_not_lt :
    ((some (0 : ℚ)).bind fun x => (some (0 : ℚ)).map fun y => decide (x < y)).getD false = false := by
  decide

/-- Rationals and one value that is not finite, in vectors of two. -/
def fractions : FloatOps (Option ℚ) 2 where
  zero := some 0
  add x y := x.bind fun x => y.map fun y => x + y
  mul x y := x.bind fun x => y.map fun y => x * y
  mulAdd x y z := if y = some 0 then z else x.bind fun x => y.bind fun y => z.map fun z => x * y + z
  reduceSum v := (v 0).bind fun x => (v 1).map fun y => x + y
  sub x y := x.bind fun x => y.map fun y => x - y
  div x y := x.bind fun x => y.map fun y => x / y
  sqrt x := x
  abs x := x.map fun x => |x|
  lt x y := (x.bind fun x => y.map fun y => decide (x < y)).getD false
  le x y := (x.bind fun x => y.map fun y => decide (x ≤ y)).getD false
  eq x y := decide (x = y)
  isFinite x := x.isSome
  lit q := some q
  zero_not_lt := some_zero_not_lt

theorem fractions_laws : Laws fractions where
  eq_zero x := by simp [fractions]
  mul_zero x h := by
    cases x with
    | none => cases h
    | some x => simp [fractions]
  mul_zero_finite x h := by
    cases x with
    | none => cases h
    | some x => rfl
  mulAdd_zero x acc _ := by simp [fractions]
  add_zero x := by cases x <;> simp [fractions]
  zero_add x := by cases x <;> simp [fractions]
  sub_zero x := by cases x <;> simp [fractions]

def vectorsOfTwo : Build 2 := ⟨false, nofun⟩

def oneRound : Schedule fractions := ⟨1, fun _ => some 0, rfl, fun _ => rfl⟩

/-- Two atoms, the second one not used and with `last` as its last value. -/
def twoAtoms (last : Option ℚ) : Args (Option ℚ) where
  m := 3
  n := 1
  atoms := 2
  dictionary i k := if i = 2 then if k = 0 then some 1 else last else some 0
  gradient i t := if i = 0 ∧ t = 2 then some 1 else some 0
  lambdaScale := none
  lipschitz := some 1
  sigma := some 0

def patch : Mat (Option ℚ) := fun i _ => if i = 2 then some 3 else some 0

theorem lsscReconstructImpl_plain_two : lsscReconstructImpl fractions vectorsOfTwo oneRound (twoAtoms (some 0)) patch
    (fun _ => none) = some (plainResult fractions oneRound (twoAtoms (some 0)) patch) := by
  refine (lsscReconstructImpl_plain fractions fractions_laws vectorsOfTwo oneRound (twoAtoms (some 0)) ?_ patch
    fun _ => none).2.1
  intro i _ k _
  simp only [twoAtoms]
  split_ifs <;> rfl

/-- An atom that is left out leaves its infinite value out, which no product with all atoms does. -/
theorem lsscReconstructImpl_ne_plain : Laws fractions ∧
    lsscReconstructImpl fractions vectorsOfTwo oneRound (twoAtoms none) patch (fun _ => none) ≠
      some (plainResult fractions oneRound (twoAtoms none) patch) := by
  refine ⟨fractions_laws, fun h => ?_⟩
  have hvalue := congrArg (Option.map fun r => r 2 0) h
  have hcode : (lsscReconstructImpl fractions vectorsOfTwo oneRound (twoAtoms none) patch fun _ => none).map
      (fun r => r 2 0) = some (some (14 / 5)) := by decide +kernel
  have hplain : plainResult fractions oneRound (twoAtoms none) patch 2 0 = some 1 := by decide +kernel
  rw [hcode, Option.map_some, hplain] at hvalue
  exact absurd hvalue (by decide +kernel)

end NssFactory.Cpu.LsscReconstruct
