import NssFactory.Cpu.Match
import NssFactory.Lib.Doubles

/-!
# OMP with screened correlations

`MixedOmpSearch` of `src/cpu/lssc/mixed_omp.hpp` and `lssc_omp_workspace` of `omp.cpp`. The search
for the next atom looks at correlations in FP32 and computes in FP64 those of the atoms that may
be the best; where it cannot tell it leaves the search to the loop over all atoms. `screening`
says that what it finds is what the loop finds.

Arrays are functions of their index. The FP32 product (`gemm_tn_hwy`) is a parameter, and so are
the operations on doubles (`Doubles`).
-/

namespace NssFactory.Cpu.Omp

/-- The bits without the sign. -/
def absBits (v : F32) : F32 := v &&& 0x7fffffff#32

/-- `std::numeric_limits<float>::max()` -/
def floatMax : F32 := 0x7f7fffff#32

/-- `std::numeric_limits<float>::min()` -/
def floatMin : F32 := 0x00800000#32

/-- `1e-12f` -/
def tinyFloat : F32 := 0x2b8cbccc#32

/-- The dictionary of a search. -/
structure Dictionary where
  data : Nat → F32
  rows : Nat
  atoms : Nat
  stride : Nat

/-- The doubles of a search, and its FP32 product: the residual's correlation with each atom. -/
structure Arith where
  F : Doubles F32
  finite_eq : F.finiteSingle = F32.isFiniteBits
  tiny_nonneg : 0 ≤ F.real (F.ofSingle tinyFloat)
  gemm : Dictionary → (Nat → F32) → Nat → F32

namespace Arith

variable (A : Arith)

def zero : A.F.D := A.F.ofNat 0

/-- `double(1e-12f)` -/
def tiny : A.F.D := A.F.ofSingle tinyFloat

/-- `std::max` of doubles -/
def max (x y : A.F.D) : A.F.D := if A.F.lt x y then y else x

end Arith

section Model

variable (A : Arith) (d : Dictionary)

def Dictionary.at_ (atom row : Nat) : F32 := d.data (atom * d.stride + row)

/-! ### The screened search -/

/-- The largest magnitude in the dictionary; `std::max` skips a NaN. -/
def maximum : F32 :=
  (List.range d.atoms).foldl (fun m atom => (List.range d.rows).foldl (fun m row =>
    if m.lt (absBits (d.at_ atom row)) then absBits (d.at_ atom row) else m) m) F32.zero

/-- `enabled_` -/
def enabled : Bool :=
  decide (16 ≤ d.rows ∧ d.rows ≤ 256 ∧ 16 ≤ d.atoms ∧ d.atoms ≤ 256) &&
    (F32.zero.lt (maximum d) && (maximum d).isFiniteBits)

/-- The residual in FP32 with the sum of its magnitudes and of its errors. -/
structure Cast where
  residual : Nat → F32
  sumAbs : A.F.D
  castError : A.F.D

def castRow (residual : Nat → A.F.D) (c : Cast A) (row : Nat) : Option (Cast A) :=
  let value := residual row
  if A.F.le (A.F.abs value) (A.F.ofSingle floatMax) = false then none
  else
    let rounded := A.F.toSingle value
    if rounded.isFiniteBits = false then none
    else some
      { residual := Function.update c.residual row rounded
        sumAbs := A.F.add c.sumAbs (A.F.abs (A.F.ofSingle rounded))
        castError := A.F.add c.castError (A.F.abs (A.F.sub value (A.F.ofSingle rounded))) }

def cast (residual : Nat → A.F.D) : Option (Cast A) :=
  (List.range d.rows).foldlM (castRow A residual) ⟨fun _ => F32.zero, A.zero, A.zero⟩

/-- The bound of the errors of the FP32 correlations. -/
def errorBound (c : Cast A) : A.F.D :=
  let two := A.F.ofNat 2
  let rows := A.F.ofNat d.rows
  let unit := A.F.ulp
  let operations := A.F.add (A.F.mul two rows) (A.F.ofNat 32)
  let gamma := A.F.div (A.F.mul operations unit) (A.F.sub (A.F.ofNat 1) (A.F.mul operations unit))
  let tiny := A.F.ofSingle floatMin
  let maximum := A.F.ofSingle (maximum d)
  A.F.add (A.F.mul (A.F.mul two maximum) (A.F.add c.castError (A.F.mul gamma c.sumAbs)))
    (A.F.mul (A.F.mul (A.F.add (A.F.mul two rows) (A.F.ofNat 64)) tiny)
      (A.F.add (A.F.add (A.F.ofNat 1) c.sumAbs) (A.F.mul rows maximum)))

/-- `precise` and the loop over all atoms: the magnitude of an atom's correlation. -/
def magnitude (residual : Nat → A.F.D) (atom : Nat) : A.F.D :=
  A.F.abs ((List.range d.rows).foldl (fun dot row => A.F.fma (A.F.ofSingle (d.at_ atom row)) (residual row) dot) A.zero)

/-- `seed` and `peak`; none where a correlation is not finite. -/
def seedStep (approximate : Nat → F32) (used : Nat → Bool) (s : Option Nat × F32) (atom : Nat) :
    Option (Option Nat × F32) :=
  if (approximate atom).isFiniteBits = false then none
  else if used atom = false ∧ s.2.lt (absBits (approximate atom)) = true then
    some (some atom, absBits (approximate atom))
  else some s

def seed (approximate : Nat → F32) (used : Nat → Bool) : Option (Option Nat × F32) :=
  (List.range d.atoms).foldlM (seedStep approximate used) (none, F32.zero)

/-- `double(std::abs(approximate_[atom])) + error` -/
def upper (approximate : Nat → F32) (error : A.F.D) (atom : Nat) : A.F.D :=
  A.F.add (A.F.ofSingle (absBits (approximate atom))) error

def contenders (approximate : Nat → F32) (used : Nat → Bool) (error best : A.F.D) : Nat :=
  ((List.range d.atoms).filter fun atom => !used atom && A.F.le best (upper A approximate error atom)).length

/-- An atom that may be better than the best so far. -/
def refineStep (residual : Nat → A.F.D) (approximate : Nat → F32) (used : Nat → Bool) (error : A.F.D) (first : Nat)
    (best : Nat × A.F.D) (atom : Nat) : Option (Nat × A.F.D) :=
  if used atom = true ∨ atom = first ∨ A.F.lt (upper A approximate error atom) best.2 = true then some best
  else
    let value := magnitude A d residual atom
    if A.F.isFinite value = false then none
    else if A.F.lt best.2 value = true ∨ A.F.eq value best.2 = true ∧ atom < best.1 then some (atom, value)
    else some best

/-- `MixedOmpSearch::select` -/
def select (residual : Nat → A.F.D) (used : Nat → Bool) : Option (Nat × A.F.D) :=
  if enabled d = false then none
  else do
    let c ← cast A d residual
    let error := errorBound A d c
    if A.F.isFinite error = false then none
    else do
      let approximate := A.gemm d c.residual
      let (first, peak) ← seed d approximate used
      let first ← first
      if A.F.le (A.F.sub (A.F.ofSingle peak) error) A.tiny = true then none
      else
        let best := magnitude A d residual first
        if A.F.isFinite best = false then none
        else if 16 < contenders A d approximate used error best then none
        else (List.range d.atoms).foldlM (refineStep A d residual approximate used error first) (first, best)

/-! ### The loop over all atoms -/

/-- `if (magnitude > largest)` -/
def better (used : Nat → Bool) (value : Nat → A.F.D) (s : Option Nat × A.F.D) (atom : Nat) : Option Nat × A.F.D :=
  if used atom then s else if A.F.lt s.2 (value atom) then (some atom, value atom) else s

/-- The dots of eight atoms. -/
def sums (residual : Nat → A.F.D) (atom : Nat) : Nat → A.F.D :=
  (List.range d.rows).foldl (fun sums row => fun lane =>
    A.F.fma (A.F.ofSingle (d.at_ (atom + lane) row)) (residual row) (sums lane)) fun _ => A.zero

/-- The search without screening. -/
def plain (residual : Nat → A.F.D) (used : Nat → Bool) : Option Nat × A.F.D :=
  let s := (List.range (d.atoms / 8)).foldl (fun s i => (List.range 8).foldl (fun s lane =>
    better A used (fun atom => A.F.abs (sums A d residual (8 * i) (atom - 8 * i))) s (8 * i + lane)) s) (none, A.zero)
  (List.range' (8 * (d.atoms / 8)) (d.atoms % 8)).foldl (better A used (magnitude A d residual)) s

/-! ### The pursuit -/

/-- `dot_precise` -/
def dotPrecise (a b : Nat → F32) (n : Nat) : A.F.D :=
  (List.range n).foldl (fun sum i => A.F.fma (A.F.ofSingle (a i)) (A.F.ofSingle (b i)) sum) A.zero

/-- An entry of the factor. -/
def factorEntry (n : Nat) (gram : Nat → A.F.D) (i j : Nat) : Nat → A.F.D :=
  let value := (List.range j).foldl (fun value p =>
    A.F.fma (A.F.neg (gram (i * n + p))) (gram (j * n + p)) value) (gram (i * n + j))
  Function.update gram (i * n + j)
    (if i = j then A.F.sqrt (A.max value A.tiny) else A.F.div value (gram (j * n + j)))

/-- `solve_cholesky` -/
def solveCholesky (n : Nat) (gram rhs : Nat → A.F.D) : Nat → A.F.D :=
  let gram := (List.range n).foldl (fun gram i =>
    (List.range (i + 1)).foldl (fun gram j => factorEntry A n gram i j) gram) gram
  let rhs := (List.range n).foldl (fun rhs i => Function.update rhs i
    (A.F.div ((List.range i).foldl (fun value p => A.F.fma (A.F.neg (gram (i * n + p))) (rhs p) value) (rhs i))
      (gram (i * n + i)))) rhs
  (List.range n).reverse.foldl (fun rhs i => Function.update rhs i
    (A.F.div ((List.range' (i + 1) (n - (i + 1))).foldl (fun value p =>
      A.F.fma (A.F.neg (gram (p * n + i))) (rhs p) value) (rhs i)) (gram (i * n + i)))) rhs

/-- The state between two iterations. -/
structure State where
  residual : Nat → A.F.D
  used : Nat → Bool
  support : List Nat
  coefficients : Nat → F32

/-- The least squares fit on a support. -/
def fit (y : Nat → F32) (support : List Nat) : Nat → A.F.D :=
  let count := support.length
  let column := fun p => d.at_ (support.getD p 0)
  let gram := (List.range count).foldl (fun gram p => (List.range' p (count - p)).foldl (fun gram q =>
    let value := dotPrecise A (column p) (column q) d.rows
    Function.update (Function.update gram (q * count + p) value) (p * count + q) value) gram) fun _ => A.zero
  solveCholesky A count gram fun p => dotPrecise A (column p) y d.rows

/-- The coefficients of a support; those of other atoms are zero. -/
def coefficients (support : List Nat) (rhs : Nat → A.F.D) : Nat → F32 :=
  (List.range support.length).foldl (fun a p => Function.update a (support.getD p 0) (A.F.toSingle (rhs p)))
    fun _ => F32.zero

def residualRow (y : Nat → F32) (support : List Nat) (rhs : Nat → A.F.D) (row : Nat) : A.F.D :=
  (List.range support.length).foldl (fun residual p =>
    A.F.fma (A.F.neg (rhs p)) (A.F.ofSingle (d.at_ (support.getD p 0) row)) residual) (A.F.ofSingle (y row))

/-- An atom joins the support. -/
def take (y : Nat → F32) (s : State A) (best : Nat) : State A :=
  let support := s.support ++ [best]
  let rhs := fit A d y support
  { residual := residualRow A d y support rhs
    used := Function.update s.used best true
    support
    coefficients := coefficients A support rhs }

def normSquared (residual : Nat → A.F.D) : A.F.D :=
  (List.range d.rows).foldl (fun norm row => A.F.fma (residual row) (residual row) norm) A.zero

/-- The atom of an iteration, unless nothing correlates. -/
def choose (screen : Bool) (s : State A) : Option Nat :=
  let r := match (if screen then select A d s.residual s.used else none) with
    | some (best, largest) => (some best, largest)
    | none => plain A d s.residual s.used
  if A.F.lt r.2 A.tiny then none else r.1

/-- The iterations that are left. -/
def iterate (screen : Bool) (y : Nat → F32) : Nat → State A → State A
  | 0, s => s
  | n + 1, s => match choose A d screen s with
    | none => s
    | some best =>
      let s := take A d y s best
      if A.F.lt (normSquared A d s.residual) A.tiny then s else iterate screen y n s

/-- The state before the first iteration. -/
def initial (y : Nat → F32) : State A :=
  ⟨fun row => A.F.ofSingle (y row), fun _ => false, [], fun _ => F32.zero⟩

/-- `lssc_omp_workspace`: the support, whose length it returns, and the coefficients. -/
def omp (screen : Bool) (y : Nat → F32) (sparsity : Nat) : List Nat × (Nat → F32) :=
  let s := iterate A d screen y (min 8 (min d.atoms sparsity)) (initial A y)
  (s.support, s.coefficients)

end Model

/-! ## What both searches look for -/

section Best

variable {A : Arith} {d : Dictionary} {residual : Nat → A.F.D} {used : Nat → Bool} {value : Nat → A.F.D}

/-- Atom `a` is as good as every atom of `l` that is not used, and none before it is as good. -/
def Best (A : Arith) (used : Nat → Bool) (value : Nat → A.F.D) (l : List Nat) (a : Nat) : Prop :=
  ∀ b ∈ l, used b = false → A.F.real (value b) < A.F.real (value a) ∨
    A.F.real (value b) = A.F.real (value a) ∧ a ≤ b

/-- The loop from the left, over increasing atoms, finds the best. -/
theorem foldl_better {l : List Nat} {a : Nat} {s : Option Nat × A.F.D} (hincreasing : l.Pairwise (· < ·))
    (hfinite : ∀ b ∈ l, used b = false → A.F.isFinite (value b) = true) (hs : A.F.isFinite s.2 = true)
    (hmem : a ∈ l) (hunused : used a = false) (hbest : Best A used value l a)
    (hlt : A.F.real s.2 < A.F.real (value a)) : l.foldl (better A used value) s = (some a, value a) := by
  induction l generalizing s with
  | nil => simp at hmem
  | cons b l ih =>
    obtain ⟨hfirst, hincreasing⟩ := List.pairwise_cons.mp hincreasing
    have hrest : ∀ c ∈ l, used c = false → A.F.isFinite (value c) = true :=
      fun c hc => hfinite c (List.mem_cons_of_mem _ hc)
    rw [List.foldl_cons]
    by_cases hab : a = b
    · subst hab
      have hstep : better A used value s a = (some a, value a) := by
        unfold better
        rw [hunused, if_neg Bool.false_ne_true, if_pos ((A.F.lt_iff hs (hfinite a hmem hunused)).mpr hlt)]
      rw [hstep]
      -- no later atom is better
      have hkeep : ∀ l' : List Nat, (∀ c ∈ l', c ∈ l) → l'.foldl (better A used value) (some a, value a) = (some a, value a) := by
        intro l'
        induction l' with
        | nil => exact fun _ => rfl
        | cons c l' ih' =>
          intro hsub
          have hc := hsub c List.mem_cons_self
          have hsame : better A used value (some a, value a) c = (some a, value a) := by
            unfold better
            cases hused : used c with
            | true => rw [if_pos rfl]
            | false =>
              rw [if_neg Bool.false_ne_true, if_neg]
              intro h
              have hlt := (A.F.lt_iff (hfinite a hmem hunused) (hrest c hc hused)).mp h
              rcases hbest c (List.mem_cons_of_mem _ hc) hused with h' | ⟨h', -⟩ <;> linarith
          rw [List.foldl_cons, hsame]
          exact ih' fun e he => hsub e (List.mem_cons_of_mem _ he)
      exact hkeep l fun c hc => hc
    · have hmem : a ∈ l := by
        rcases List.mem_cons.mp hmem with h | h
        · exact absurd h hab
        · exact h
      have hbest' : Best A used value l a := fun c hc => hbest c (List.mem_cons_of_mem _ hc)
      have hstep : A.F.isFinite (better A used value s b).2 = true ∧
          A.F.real (better A used value s b).2 < A.F.real (value a) := by
        unfold better
        cases hused : used b with
        | true => exact ⟨hs, hlt⟩
        | false =>
          rw [if_neg Bool.false_ne_true]
          split
          · refine ⟨hfinite b List.mem_cons_self hused, ?_⟩
            rcases hbest b List.mem_cons_self hused with h | ⟨-, h⟩
            · exact h
            · have hba := hfirst a hmem
              omega
          · exact ⟨hs, hlt⟩
      exact ih hincreasing hrest hstep.1 hmem hbest' hstep.2

/-! ### The loop over all atoms -/

theorem sums_eq (atom lane : Nat) : A.F.abs (sums A d residual atom lane) = magnitude A d residual (atom + lane) := by
  unfold sums magnitude
  congr 1
  have hfold : ∀ (l : List Nat) (acc : Nat → A.F.D), l.foldl (fun sums row => fun lane =>
      A.F.fma (A.F.ofSingle (d.at_ (atom + lane) row)) (residual row) (sums lane)) acc lane =
      l.foldl (fun dot row => A.F.fma (A.F.ofSingle (d.at_ (atom + lane) row)) (residual row) dot) (acc lane) := by
    intro l
    induction l with
    | nil => exact fun _ => rfl
    | cons row l ih => exact fun acc => ih _
  exact hfold _ _

theorem foldl_blocks {σ : Type} (f : σ → Nat → σ) (w n : Nat) (s : σ) :
    (List.range n).foldl (fun s i => (List.range w).foldl (fun s lane => f s (w * i + lane)) s) s =
      (List.range (w * n)).foldl f s := by
  induction n with
  | zero => rfl
  | succ n ih =>
    rw [List.range_succ, List.foldl_append, ih, Nat.mul_succ, List.range_add, List.foldl_append, List.foldl_map]
    rfl

/-- The blocks of eight atoms and the rest are the atoms in order. -/
theorem plain_eq : plain A d residual used =
    (List.range d.atoms).foldl (better A used (magnitude A d residual)) (none, A.zero) := by
  have hlanes : ∀ (s : Option Nat × A.F.D) (i : Nat), (List.range 8).foldl (fun s lane =>
      better A used (fun atom => A.F.abs (sums A d residual (8 * i) (atom - 8 * i))) s (8 * i + lane)) s =
      (List.range 8).foldl (fun s lane => better A used (magnitude A d residual) s (8 * i + lane)) s := by
    intro s i
    refine List.foldl_ext _ _ _ fun s lane _ => ?_
    simp only [better, Nat.add_sub_cancel_left, sums_eq]
  have hatoms : d.atoms = 8 * (d.atoms / 8) + d.atoms % 8 := (Nat.div_add_mod d.atoms 8).symm
  unfold plain
  simp only [hlanes]
  rw [foldl_blocks (better A used (magnitude A d residual)), ← List.foldl_append]
  congr 1
  conv_rhs => rw [hatoms]
  rw [List.range_add, List.range'_eq_map_range]

theorem plain_best {a : Nat} (ha : a < d.atoms) (hunused : used a = false)
    (hfinite : ∀ b < d.atoms, used b = false → A.F.isFinite (magnitude A d residual b) = true)
    (hbest : Best A used (magnitude A d residual) (List.range d.atoms) a)
    (hpos : 0 < A.F.real (magnitude A d residual a)) :
    plain A d residual used = (some a, magnitude A d residual a) := by
  rw [plain_eq]
  refine foldl_better List.pairwise_lt_range (fun b hb => hfinite b (List.mem_range.mp hb)) A.F.zero_finite
    (List.mem_range.mpr ha) hunused hbest ?_
  rw [show A.F.real ((none : Option Nat), A.zero).2 = 0 from A.F.zero_real]
  exact hpos

/-! ### The screened search -/

theorem absBits_finite {v : F32} (h : v.isFiniteBits = true) : (absBits v).isFiniteBits = true := by
  unfold F32.isFiniteBits absBits at *
  rwa [BitVec.and_assoc, show (0x7fffffff#32 &&& 0x7f800000#32 : BitVec 32) = 0x7f800000#32 from rfl]

theorem single_finite {v : F32} (h : v.isFiniteBits = true) : A.F.isFinite (A.F.ofSingle v) = true :=
  A.F.single_finite v (by rw [A.finite_eq]; exact h)

/-- What the seed is: an atom that is not used, with its FP32 magnitude. -/
structure Seeded (approximate : Nat → F32) (used : Nat → Bool) (n : Nat) (s : Option Nat × F32) : Prop where
  finite : ∀ atom < n, (approximate atom).isFiniteBits = true
  seed : ∀ first, s.1 = some first → first < n ∧ used first = false ∧ s.2 = absBits (approximate first)

theorem seed_spec {approximate : Nat → F32} {s : Option Nat × F32} (h : seed d approximate used = some s) :
    Seeded approximate used d.atoms s := by
  unfold seed at h
  generalize d.atoms = n at h
  induction n generalizing s with
  | zero =>
    obtain rfl : (none, F32.zero) = s := Option.some.inj h
    exact ⟨by simp, by simp⟩
  | succ n ih =>
    rw [List.range_succ, List.foldlM_append] at h
    obtain ⟨s', hs', h⟩ := Option.bind_eq_some_iff.mp h
    obtain ⟨hfinite, hseed⟩ := ih hs'
    simp only [List.foldlM_cons, List.foldlM_nil] at h
    obtain ⟨s'', h, hsame⟩ := Option.bind_eq_some_iff.mp h
    obtain rfl : s'' = s := Option.some.inj hsame
    unfold seedStep at h
    split at h
    · simp at h
    rename_i hn
    have hn : (approximate n).isFiniteBits = true := by simpa using hn
    have hall : ∀ atom < n + 1, (approximate atom).isFiniteBits = true := by
      intro atom hatom
      by_cases heq : atom = n
      · rw [heq]
        exact hn
      · exact hfinite atom (by omega)
    split at h
    · rename_i hbetter
      obtain rfl := Option.some.inj h
      refine ⟨hall, fun first hfirst => ?_⟩
      obtain rfl := Option.some.inj hfirst
      exact ⟨by omega, hbetter.1, rfl⟩
    · obtain rfl := Option.some.inj h
      refine ⟨hall, fun first hfirst => ?_⟩
      obtain ⟨hlt, hrest⟩ := hseed first hfirst
      exact ⟨by omega, hrest⟩

/-- The FP32 magnitudes are within `error` of the correlations, for the atoms that are not used. -/
def Close (A : Arith) (d : Dictionary) (residual : Nat → A.F.D) (used : Nat → Bool) (approximate : Nat → F32)
    (error : A.F.D) : Prop :=
  ∀ atom < d.atoms, used atom = false → A.F.isFinite (magnitude A d residual atom) = true ∧
    |A.F.real (A.F.ofSingle (absBits (approximate atom))) - A.F.real (magnitude A d residual atom)| ≤ A.F.real error

/-- The best of the atoms that the refinement has been through. -/
structure Refined (A : Arith) (d : Dictionary) (residual : Nat → A.F.D) (used : Nat → Bool) (first : Nat)
    (seen : List Nat) (best : Nat × A.F.D) : Prop where
  value : best.2 = magnitude A d residual best.1
  inside : best.1 < d.atoms
  unused : used best.1 = false
  best : Best A used (magnitude A d residual) (first :: seen) best.1

theorem refine_step {approximate : Nat → F32} {error : A.F.D} {first b : Nat} {seen : List Nat} {best best' : Nat × A.F.D}
    (hclose : Close A d residual used approximate error) (herror : A.F.isFinite error = true)
    (hfinite : ∀ atom < d.atoms, (approximate atom).isFiniteBits = true) (hb : b < d.atoms)
    (h : Refined A d residual used first seen best)
    (hstep : refineStep A d residual approximate used error first best b = some best') :
    Refined A d residual used first (seen ++ [b]) best' := by
  obtain ⟨hvalue, hinside, hunused, hbest⟩ := h
  have hbfinite : A.F.isFinite best.2 = true := by
    rw [hvalue]
    exact (hclose best.1 hinside hunused).1
  have hextend : ∀ c, (∀ e ∈ first :: seen, used e = false →
        A.F.real (magnitude A d residual e) < A.F.real (magnitude A d residual c) ∨
          A.F.real (magnitude A d residual e) = A.F.real (magnitude A d residual c) ∧ c ≤ e) →
      (used b = false → A.F.real (magnitude A d residual b) < A.F.real (magnitude A d residual c) ∨
          A.F.real (magnitude A d residual b) = A.F.real (magnitude A d residual c) ∧ c ≤ b) →
      Best A used (magnitude A d residual) (first :: (seen ++ [b])) c := by
    intro c hold hnew e he
    rcases List.mem_cons.mp he with rfl | he
    · exact hold e List.mem_cons_self
    · rcases List.mem_append.mp he with he | he
      · exact hold e (List.mem_cons_of_mem _ he)
      · rw [List.mem_singleton.mp he]
        exact hnew
  unfold refineStep at hstep
  split at hstep
  · rename_i hskip
    obtain rfl := Option.some.inj hstep
    refine ⟨hvalue, hinside, hunused, hextend _ hbest fun hb' => ?_⟩
    rcases hskip with hused | rfl | hlt
    · exact absurd (hb'.symm.trans hused) Bool.false_ne_true
    · exact hbest b List.mem_cons_self hb'
    · -- the bound on its correlation is below the best
      obtain ⟨hmfinite, hbound⟩ := hclose b hb hb'
      left
      by_contra hge
      have hle := (abs_le.mp hbound).1
      have hupper := A.F.add_not_lt (single_finite (absBits_finite (hfinite b hb))) herror hbfinite
        (by rw [hvalue]; linarith)
      unfold upper at hlt
      rw [hupper] at hlt
      exact Bool.false_ne_true hlt
  · rename_i hkeep
    have hb' : used b = false := by
      cases hused : used b with
      | true => exact absurd (.inl hused) hkeep
      | false => rfl
    dsimp only at hstep
    split at hstep
    · simp at hstep
    have hmfinite := (hclose b hb hb').1
    split at hstep
    · rename_i hbetter
      obtain rfl := Option.some.inj hstep
      refine ⟨rfl, hb, hb', hextend _ (fun e he hused => ?_) fun _ => .inr ⟨rfl, Nat.le_refl _⟩⟩
      dsimp only
      have hold := hbest e he hused
      rw [hvalue] at hbetter hbfinite
      rcases hbetter with hlt | ⟨heq, hless⟩
      · have hlt := (A.F.lt_iff hbfinite hmfinite).mp hlt
        left
        rcases hold with hold | ⟨hold, -⟩ <;> linarith
      · have heq := (A.F.eq_iff hmfinite hbfinite).mp heq
        rw [heq]
        rcases hold with hold | ⟨hold, hle⟩
        · exact .inl hold
        · exact .inr ⟨hold, by omega⟩
    · rename_i hworse
      obtain rfl := Option.some.inj hstep
      refine ⟨hvalue, hinside, hunused, hextend _ hbest fun _ => ?_⟩
      rw [hvalue] at hworse hbfinite
      have hle : ¬A.F.real (magnitude A d residual best.1) < A.F.real (magnitude A d residual b) := fun hlt =>
        hworse (.inl ((A.F.lt_iff hbfinite hmfinite).mpr hlt))
      by_cases heq : A.F.real (magnitude A d residual b) = A.F.real (magnitude A d residual best.1)
      · have hnot : ¬b < best.1 := fun hless => hworse (.inr ⟨(A.F.eq_iff hmfinite hbfinite).mpr heq, hless⟩)
        exact .inr ⟨heq, by omega⟩
      · exact .inl (lt_of_le_of_ne (not_lt.mp hle) heq)

theorem refine_run {approximate : Nat → F32} {error : A.F.D} {first : Nat} {l seen : List Nat} {best best' : Nat × A.F.D}
    (hclose : Close A d residual used approximate error) (herror : A.F.isFinite error = true)
    (hfinite : ∀ atom < d.atoms, (approximate atom).isFiniteBits = true) (hl : ∀ b ∈ l, b < d.atoms)
    (h : Refined A d residual used first seen best)
    (hrun : l.foldlM (refineStep A d residual approximate used error first) best = some best') :
    Refined A d residual used first (seen ++ l) best' := by
  induction l generalizing seen best with
  | nil =>
    obtain rfl := Option.some.inj hrun
    rwa [List.append_nil]
  | cons b l ih =>
    rw [List.foldlM_cons] at hrun
    obtain ⟨best₁, hstep, hrun⟩ := Option.bind_eq_some_iff.mp hrun
    have hnext := refine_step hclose herror hfinite (hl b List.mem_cons_self) h hstep
    have hall := ih (fun c hc => hl c (List.mem_cons_of_mem _ hc)) hnext hrun
    rwa [List.append_assoc] at hall

/-- The FP32 correlations of a search are as close to those in FP64 as it computes. -/
def Bounded (A : Arith) (d : Dictionary) (residual : Nat → A.F.D) (used : Nat → Bool) : Prop :=
  ∀ c, cast A d residual = some c → A.F.isFinite (errorBound A d c) = true →
    (∀ atom < d.atoms, (A.gemm d c.residual atom).isFiniteBits = true) →
    Close A d residual used (A.gemm d c.residual) (errorBound A d c)

/-- What the screened search finds the loop over all atoms finds, and does not stop at. -/
theorem select_eq_plain {r : Nat × A.F.D} (hbound : Bounded A d residual used) (h : select A d residual used = some r) :
    plain A d residual used = (some r.1, r.2) ∧ A.F.lt r.2 A.tiny = false := by
  unfold select at h
  split at h
  · simp at h
  obtain ⟨c, hcast, h⟩ := Option.bind_eq_some_iff.mp h
  dsimp only at h
  split at h
  · simp at h
  rename_i herror
  have herror : A.F.isFinite (errorBound A d c) = true := by simpa using herror
  obtain ⟨⟨first?, peak⟩, hseed, h⟩ := Option.bind_eq_some_iff.mp h
  obtain ⟨hfinite, hfirst⟩ := seed_spec hseed
  have hclose := hbound c hcast herror hfinite
  dsimp only at h
  obtain ⟨first, hsome, h⟩ := Option.bind_eq_some_iff.mp h
  obtain ⟨hlt, hunused, hpeak⟩ := hfirst first hsome
  dsimp only at hpeak
  split at h
  · simp at h
  rename_i hlarge
  split at h
  · simp at h
  split at h
  · simp at h
  obtain ⟨hffinite, hfbound⟩ := hclose first hlt hunused
  have hstart : Refined A d residual used first [] (first, magnitude A d residual first) := by
    refine ⟨rfl, hlt, hunused, fun b hb _ => ?_⟩
    rw [List.mem_singleton.mp hb]
    exact .inr ⟨rfl, Nat.le_refl _⟩
  have hrefined := refine_run hclose herror hfinite (fun b hb => List.mem_range.mp hb) hstart h
  obtain ⟨hvalue, hinside, hrunused, hbest⟩ := hrefined
  have htiny : A.F.isFinite A.tiny = true := single_finite (by decide)
  have hseedlarge : A.F.real A.tiny < A.F.real (magnitude A d residual first) := by
    by_contra hle
    have hle := not_lt.mp hle
    have hdiff := (abs_le.mp hfbound).2
    rw [hpeak] at hlarge
    exact hlarge (A.F.sub_le (single_finite (absBits_finite (hfinite first hlt))) herror htiny (by linarith))
  have hlargest : A.F.real A.tiny < A.F.real (magnitude A d residual r.1) := by
    rcases hbest first List.mem_cons_self hunused with h' | ⟨h', -⟩ <;> linarith
  have htinypos : 0 ≤ A.F.real A.tiny := A.tiny_nonneg
  refine ⟨?_, ?_⟩
  · rw [hvalue]
    refine plain_best hinside hrunused (fun b hb hb' => (hclose b hb hb').1) (fun b hb => ?_) (by linarith)
    exact hbest b (List.mem_cons_of_mem _ (by simpa using hb))
  · rw [hvalue]
    cases hcmp : A.F.lt (magnitude A d residual r.1) A.tiny with
    | false => rfl
    | true =>
      have hlt := (A.F.lt_iff (hclose r.1 hinside hrunused).1 htiny).mp hcmp
      linarith

end Best

/-! ## The pursuit -/

section Pursuit

variable {A : Arith} {d : Dictionary} {y : Nat → F32}

/-- The states in which the iterations of a run look for an atom. -/
def visited (A : Arith) (d : Dictionary) (y : Nat → F32) : Nat → State A → List (State A)
  | 0, _ => []
  | n + 1, s => s :: match choose A d false s with
    | none => []
    | some best =>
      let s := take A d y s best
      if A.F.lt (normSquared A d s.residual) A.tiny then [] else visited A d y n s

theorem choose_eq {s : State A} (hbound : Bounded A d s.residual s.used) : choose A d true s = choose A d false s := by
  unfold choose
  rw [if_pos rfl, if_neg Bool.false_ne_true]
  cases hselect : select A d s.residual s.used with
  | none => rfl
  | some r =>
    obtain ⟨hplain, -⟩ := select_eq_plain hbound hselect
    rw [hplain]

theorem iterate_eq {n : Nat} {s : State A} (hbound : ∀ t ∈ visited A d y n s, Bounded A d t.residual t.used) :
    iterate A d true y n s = iterate A d false y n s := by
  induction n generalizing s with
  | zero => rfl
  | succ n ih =>
    rw [visited] at hbound
    rw [iterate, iterate, choose_eq (hbound s List.mem_cons_self)]
    cases hchoose : choose A d false s with
    | none => rfl
    | some best =>
      rw [hchoose] at hbound
      dsimp only at hbound ⊢
      by_cases hstop : A.F.lt (normSquared A d (take A d y s best).residual) A.tiny = true
      · rw [if_pos hstop, if_pos hstop]
      · rw [if_neg hstop, if_neg hstop]
        rw [if_neg hstop] at hbound
        exact ih fun t ht => hbound t (List.mem_cons_of_mem _ ht)

end Pursuit

/-- Where the FP32 correlations are as close as the bound that is computed, the screened search finds
nothing or what the loop over all atoms finds, and never where that would stop; and a pursuit whose
searches are such has the support, the count and the coefficients of one without screening. -/
theorem screening (A : Arith) (d : Dictionary) :
    (∀ residual used, Bounded A d residual used → ∀ r, select A d residual used = some r →
      plain A d residual used = (some r.1, r.2) ∧ A.F.lt r.2 A.tiny = false) ∧
    ∀ y sparsity, (∀ s ∈ visited A d y (min 8 (min d.atoms sparsity)) (initial A y), Bounded A d s.residual s.used) →
      omp A d true y sparsity = omp A d false y sparsity := by
  refine ⟨fun residual used hbound r h => select_eq_plain hbound h, fun y sparsity hbound => ?_⟩
  unfold omp
  rw [iterate_eq hbound]

/-- The value of a finite float. -/
def floatValue (v : F32) : ℚ :=
  let exponent := (v >>> 23 &&& 0xff#32).toNat
  let mantissa := (v &&& 0x7fffff#32).toNat
  let magnitude : ℚ :=
    if exponent = 0 then (mantissa : ℚ) / 2 ^ 149 else ((2 ^ 23 + mantissa : Nat) : ℚ) * 2 ^ exponent / 2 ^ 150
  if v.msb then -magnitude else magnitude

/-- Doubles that are not rounded; the conversion and the root are those of `0`, `1` and `2`. -/
def exactDoubles : Doubles F32 where
  D := ℚ
  isFinite _ := true
  real := id
  lt x y := decide (x < y)
  le x y := decide (x ≤ y)
  eq x y := decide (x = y)
  add := (· + ·)
  sub := (· - ·)
  mul := (· * ·)
  div := (· / ·)
  fma x y z := x * y + z
  neg := (- ·)
  abs := (|·|)
  sqrt x := x
  ofNat n := n
  ulp := 1 / 2 ^ 24
  ofSingle := floatValue
  toSingle x := if x = 0 then F32.zero else if x = 1 then 0x3f800000#32 else 0x40000000#32
  finiteSingle := F32.isFiniteBits
  zero_finite := rfl
  zero_real := rfl
  single_finite _ _ := rfl
  lt_iff _ _ := decide_eq_true_iff
  eq_iff _ _ := decide_eq_true_iff
  add_not_lt _ _ _ h := decide_eq_false (not_lt.mpr h)
  sub_le _ _ _ h := decide_eq_true h

def exactDot (d : Dictionary) (r : Nat → F32) (atom : Nat) : ℚ :=
  (List.range d.rows).foldl (fun sum row => floatValue (d.at_ atom row) * floatValue (r row) + sum) 0

def exactArith : Arith where
  F := exactDoubles
  finite_eq := rfl
  tiny_nonneg := by
    change 0 ≤ floatValue tinyFloat
    with_unfolding_all decide
  gemm d r atom := exactDoubles.toSingle (exactDot d r atom)

/-- Sixteen unit vectors. -/
def unitDictionary : Dictionary := ⟨fun i => if i % 16 = i / 16 then 0x3f800000#32 else F32.zero, 16, 16, 16⟩

/-- Twice the fourth of them. -/
def twice (i : Nat) : F32 := if i = 3 then 0x40000000#32 else F32.zero

theorem unit_bounded : Bounded exactArith unitDictionary (initial exactArith twice).residual fun _ => false := by
  intro c hc _ _
  obtain rfl : (cast exactArith unitDictionary (initial exactArith twice).residual).getD
      ⟨fun _ => F32.zero, (0 : ℚ), (0 : ℚ)⟩ = c := by
    rw [hc]
    rfl
  intro atom hatom _
  refine ⟨rfl, ?_⟩
  revert atom
  decide +kernel

/-- What the screened search finds there. -/
def unitSelected : Option (Nat × ℚ) :=
  select exactArith unitDictionary (initial exactArith twice).residual fun _ => false

theorem screening_unit : plain exactArith unitDictionary (initial exactArith twice).residual (fun _ => false) = (some 3, (2 : ℚ)) ∧
    omp exactArith unitDictionary true twice 1 = omp exactArith unitDictionary false twice 1 := by
  obtain ⟨hselect, homp⟩ := screening exactArith unitDictionary
  have hrun : unitSelected = some (3, 2) := by decide +kernel
  refine ⟨(hselect _ _ unit_bounded (3, (2 : ℚ)) hrun).1, homp twice 1 fun s hs => ?_⟩
  have hvisited : visited exactArith unitDictionary twice 1 (initial exactArith twice) = [initial exactArith twice] := by
    rw [visited]
    split
    · rfl
    · dsimp only
      split <;> rfl
  rw [show min 8 (min unitDictionary.atoms 1) = 1 from rfl, hvisited, List.mem_singleton] at hs
  subst hs
  exact unit_bounded

end NssFactory.Cpu.Omp
