import Mathlib.Algebra.BigOperators.Group.Finset.Basic
import Mathlib.Algebra.BigOperators.Field
import Mathlib.Tactic.Ring
import NssFactory.Cpu.SvdBatch8
import NssFactory.Lib.Scratch

/-!
# The scratch of the economy SVD

`svd_economy` factors a matrix that is tall, or the transpose of one that is wide; a matrix whose
squares could overflow is scaled first. Each way takes other regions of a scratch buffer: `work`
where it has the documented size, else a pool of the thread.

The reflectors and the rotations are left open (`Kernels`): they read the matrix they are given and
write all of what they return.
-/

namespace NssFactory.Cpu.SvdEconomy

open Areas Scratch Vectors
open SvdBatch8 (Bits svdInputScale infinite)

def kSvdMaxM : Nat := 256

def kSvdMaxN : Nat := 32

/-- `tls_pool` -/
def kCap : Nat := kSvdMaxM * kSvdMaxN * 6 + kSvdMaxN * kSvdMaxN * 8 + 1024

/-- The size that is asked of `work`. -/
def documented (m n : Nat) : Nat := m * n * 4 + n * n * 4 + n

/-! ## The call -/

/-- The arrays of the caller, and the scratch. -/
inductive Buffer
  | A | U | S | Vt | pool
  deriving DecidableEq

/-- What a matrix is there for. -/
inductive Use
  | A | U | S | Vt | scaled | AT | U2 | Vt2 | R | Ur | Vj | Vh | beta | W
  deriving DecidableEq

/-- All of these are returned as -1; there is no region that is left for the last one. -/
inductive Failure
  | arguments | nonfinite | scratch | stray

/-- What is written by `householder_qr_hwy`. -/
structure Reflectors (D : Type) where
  R : Nat → Nat → D
  Vh : Nat → Nat → D
  beta : Nat → D
  W : Nat → Nat → D

/-- What is written by the rotations. -/
structure Rotated (D : Type) where
  Ur : Nat → Nat → D
  S : Nat → D
  Vt : Nat → Nat → D
  V : Nat → Nat → D

/-- The functions that are called with regions. -/
structure Kernels (D : Type) where
  householderQr : Nat → Nat → (Nat → Nat → D) → Reflectors D
  jacobiSvd8 : (Nat → Nat → D) → Rotated D
  jacobiSvdNHwy : Nat → (Nat → Nat → D) → Rotated D
  jacobiSvdN : Nat → (Nat → Nat → D) → Rotated D
  applyHouseholder : Nat → Nat → (Nat → D) → D → (Nat → Nat → D) → Nat → Nat → D

section Code

variable {D : Type} (o : Floats D) (x : Bits D) (k : Kernels D)

abbrev Program (D α : Type) := Run (Scratch.State Buffer Use D) Failure α

/-- The rotations that a size gets. -/
def jacobiSvd (n : Nat) (r : Nat → Nat → D) : Rotated D :=
  if n = 8 then k.jacobiSvd8 r else if 8 < n then k.jacobiSvdNHwy n r else k.jacobiSvdN n r

/-- Reflector `c` on the rows from `c` on. -/
def reflected (m n c : Nat) (h : Nat → Nat → D) (b : D) (u : Nat → Nat → D) : Nat → Nat → D := fun i j =>
  if i < c then u i j
  else k.applyHouseholder n (m - c) (fun i => h (c + i) c) b (fun i j => u (c + i) j) (i - c) j

/-- A column of values. -/
def column (v : Nat → D) : Nat → Nat → D := fun i _ => v i

def maximum (m n : Nat) (a : Nat → Nat → D) : Nat :=
  (List.range n).foldl (fun s col => (List.range m).foldl (fun s row => max s (x.magnitude (a row col))) s) 0

variable (size : Buffer → Nat)

/-- The caller's arrays. -/
def arrayA (lda m n : Nat) : Place Buffer Use := ⟨.A, .A, ⟨0, lda, m, n⟩⟩

def arrayU (ldu m cols : Nat) : Place Buffer Use := ⟨.U, .U, ⟨0, ldu, m, cols⟩⟩

def arrayS (r : Nat) : Place Buffer Use := ⟨.S, .S, ⟨0, r, r, 1⟩⟩

def arrayVt (ldvt rows n : Nat) : Place Buffer Use := ⟨.Vt, .Vt, ⟨0, ldvt, rows, n⟩⟩

/-- A matrix without padding in the scratch. -/
def region (use : Use) (base rows cols : Nat) : Place Buffer Use := ⟨.pool, use, ⟨base, rows, rows, cols⟩⟩

def householderQr (m n : Nat) (A R Vh beta : Place Buffer Use) : Program D Unit := do
  match ← taking [m * n] with
  | [some W] =>
    let a ← read size o.zero .stray A
    let q := k.householderQr m n a
    write size .stray (region .W W m n) q.W
    write size .stray R q.R
    write size .stray Vh q.Vh
    write size .stray beta (column q.beta)
  | _ => Run.fail .scratch

/-- Reflector `c`, unless it is the identity. -/
def reflect (m n : Nat) (U Vh beta : Place Buffer Use) (c : Nat) : Program D Unit := do
  let b ← read size o.zero .stray beta
  if o.eq (b c 0) o.zero then pure ()
  else do
    let h ← read size o.zero .stray Vh
    let u ← read size o.zero .stray U
    write size .stray U (reflected k m n c h (b c 0) u)

/-- `V` is returned by the rotations of small matrices alone. -/
def writeV (n : Nat) (Vj : Place Buffer Use) (v : Nat → Nat → D) : Program D Unit :=
  if n ≤ 8 then write size .stray Vj v else pure ()

def svdMn (m n : Nat) (A U S Vt : Place Buffer Use) : Program D Unit := do
  match ← taking [n * n, n * n, n * n, m * n, n] with
  | [some R, some Ur, some Vj, some Vh, some beta] =>
    let R := region .R R n n
    let Ur := region .Ur Ur n n
    let Vh := region .Vh Vh m n
    let beta := region .beta beta n 1
    householderQr o k size m n A R Vh beta
    let r ← read size o.zero .stray R
    let j := jacobiSvd k n r
    write size .stray Ur j.Ur
    write size .stray S (column j.S)
    write size .stray Vt j.Vt
    writeV size n (region .Vj Vj n n) j.V
    let ur ← read size o.zero .stray Ur
    write size .stray U fun i j => if i < n then ur i j else o.zero
    (List.range n).reverse.forM (reflect o k size m n U Vh beta)
  | _ => Run.fail .scratch

/-- A value of `S` scaled back; false where it is not finite. -/
def scaleBack (scale : D) (s : Nat → D) (i : Nat) : (Nat → D) × Bool :=
  (Function.update s i (o.div (s i) scale), decide (x.magnitude (o.div (s i) scale) < infinite))

def finish (r : Nat) (scale : D) : Program D Unit := do
  let s ← read size o.zero .stray (arrayS r)
  let back := untilFalse (scaleBack o x scale) (List.range r) fun i => s i 0
  write size .stray (arrayS r) (column back.1)
  if back.2 then pure () else Run.fail .nonfinite

/-- The buffers of a call: the caller's arrays as it says, the scratch as it is given. -/
def sizes (n lda ldu ldvt cap : Nat) : Buffer → Nat
  | .A => lda * n
  | .U => ldu * n
  | .S => n
  | .Vt => ldvt * n
  | .pool => cap

/-- The matrix that is decomposed: `A`, or a scaled copy. -/
def input (m n : Nat) (scale : D) (A : Place Buffer Use) (a : Nat → Nat → D) : Program D (Place Buffer Use) :=
  if o.eq scale o.one then pure A
  else do
    match ← taking [m * n] with
    | [some p] =>
      write size .stray (region .scaled p m n) fun i j => o.mul (a i j) scale
      pure (region .scaled p m n)
    | _ => Run.fail .scratch

/-- An array is cleared, and its first rows and columns get the transpose of a region. -/
def fill (p : Place Buffer Use) (rows cols : Nat) (q : Place Buffer Use) : Program D Unit := do
  write size .stray p fun _ _ => o.zero
  let f ← read size o.zero .stray q
  write size .stray ⟨p.buffer, p.use, ⟨p.area.base, p.area.ld, rows, cols⟩⟩ fun i j => f j i

/-- The way of `m < n`, by the transpose. -/
def wide (m n ldu ldvt : Nat) (A : Place Buffer Use) : Program D Unit := do
  match ← taking [n * m, n * max n m, m * n] with
  | [some AT, some U2, some Vt2] =>
    let AT := region .AT AT n m
    let U2 : Place Buffer Use := ⟨.pool, .U2, ⟨U2, n, n, m⟩⟩
    let Vt2 : Place Buffer Use := ⟨.pool, .Vt2, ⟨Vt2, m, m, m⟩⟩
    let a ← read size o.zero .stray A
    write size .stray AT fun i j => a j i
    svdMn o k size n m AT U2 (arrayS m) Vt2
    fill o size (arrayU ldu m n) m m Vt2
    fill o size (arrayVt ldvt n n) m n U2
  | _ => Run.fail .scratch

/-- After the choice of the scratch. -/
def economy (m n lda ldu ldvt : Nat) : Program D Unit := do
  let a ← read size o.zero .stray (arrayA lda m n)
  if infinite ≤ maximum x m n a then Run.fail .nonfinite
  else do
    let scale := svdInputScale o x (maximum x m n a)
    let A ← input o size m n scale (arrayA lda m n) a
    if m < n then do
      wide o k size m n ldu ldvt A
      finish o x size m scale
    else do
      svdMn o k size m n A (arrayU ldu m n) (arrayS n) (arrayVt ldvt n n)
      finish o x size n scale

/-- How much scratch a call has that is given `work_floats` floats. -/
def capacity (m n : Nat) (work : Option Nat) : Nat :=
  match work with
  | some workFloats => if workFloats < documented m n then kCap else workFloats
  | none => kCap

/-- `svd_economy` -/
def svdEconomy (m n lda ldu ldvt : Nat) (work : Option Nat) (mem : Buffer → Areas.Memory Use D) :
    Except Failure Unit × Scratch.State Buffer Use D :=
  let cap := capacity m n work
  let s : Scratch.State Buffer Use D := ⟨⟨0, cap, []⟩, mem⟩
  if m = 0 ∨ n = 0 ∨ kSvdMaxM < m ∨ kSvdMaxN < n ∨ lda < m ∨ ldu < m ∨ ldvt < n then (.error .arguments, s)
  else economy o x k (sizes n lda ldu ldvt cap) m n lda ldu ldvt s

end Code

/-! ## What is returned -/

/-- A decomposition. -/
structure Svd (D : Type) where
  U : Nat → Nat → D
  S : Nat → D
  Vt : Nat → Nat → D

section Values

variable {D : Type} (o : Floats D) (x : Bits D) (k : Kernels D)

def reflectOf (m n : Nat) (h : Nat → Nat → D) (beta : Nat → D) (u : Nat → Nat → D) (c : Nat) : Nat → Nat → D :=
  if o.eq (beta c) o.zero then u else reflected k m n c (block o.zero m n h) (beta c) (block o.zero m n u)

/-- `svd_mn` without memory. -/
def svdMnOf (m n : Nat) (a : Nat → Nat → D) : Svd D :=
  let q := k.householderQr m n (block o.zero m n a)
  let j := jacobiSvd k n (block o.zero n n q.R)
  { U := (List.range n).reverse.foldl (reflectOf o k m n q.Vh q.beta) fun i j' =>
      if i < n then block o.zero n n j.Ur i j' else o.zero
    S := j.S
    Vt := j.Vt }

/-- The matrix that is decomposed. -/
def scaledOf (scale : D) (a : Nat → Nat → D) : Nat → Nat → D :=
  if o.eq scale o.one then a else fun i j => o.mul (a i j) scale

/-- The transpose of a wide matrix. -/
def transposed (m n : Nat) (a : Nat → Nat → D) : Nat → Nat → D := fun i j => block o.zero m n a j i

/-- The decomposition of a wide matrix, from that of its transpose. -/
def wideOf (m n : Nat) (w : Svd D) : Svd D where
  U i j := if i < m ∧ j < m then block o.zero m m w.Vt j i else o.zero
  S := w.S
  Vt i j := if i < m ∧ j < n then block o.zero n m w.U j i else o.zero

def scaleIn (m n : Nat) (a : Nat → Nat → D) : D := svdInputScale o x (maximum x m n (block o.zero m n a))

def decompositionOf (m n : Nat) (a : Nat → Nat → D) : Svd D :=
  let scaled := scaledOf o (scaleIn o x m n a) (block o.zero m n a)
  if m < n then wideOf o m n (svdMnOf o k n m (transposed o m n scaled)) else svdMnOf o k m n scaled

/-- The values of `S` scaled back, and whether all are finite. -/
def scaledBack (r : Nat) (scale : D) (s : Nat → D) : (Nat → D) × Bool :=
  untilFalse (scaleBack o x scale) (List.range r) fun i => block o.zero r 1 (column s) i 0

end Values

/-! ## The regions hold what they are read for -/

section Proofs

variable {D : Type} {o : Floats D} {x : Bits D} {k : Kernels D} {size : Buffer → Nat} {m n : Nat}
  {s : Scratch.State Buffer Use D} {a : Nat → Nat → D} {A R Vh beta U S Vt : Place Buffer Use}

/-- What is not in the pool, or below `base` there. -/
def Below (base : Nat) (p : Place Buffer Use) : Prop := p.buffer = .pool → p.area.stop ≤ base

theorem Below.apart {base base' rows cols : Nat} {p : Place Buffer Use} {use : Use} (h : Below base p)
    (hbase : base ≤ base') : p.Apart (region use base' rows cols) := fun hbuffer => .inl ((h hbuffer).trans hbase)

theorem region_below {base base' rows cols : Nat} {use : Use} (h : base + rows * cols ≤ base') :
    Below base' (region use base rows cols) := fun _ => h

theorem region_sized {base rows cols : Nat} {use : Use} (h : base + rows * cols ≤ size .pool) :
    (region use base rows cols).Sized size rows cols := ⟨Nat.le_refl rows, h, rfl, rfl⟩

theorem householderQr_runs (hroom : s.bump.used + m * n ≤ s.bump.cap) (hcap : s.bump.cap = size .pool)
    (hA : There s A a) (hA' : A.Sized size m n) (hR : R.Sized size n n) (hVh : Vh.Sized size m n)
    (hbeta : beta.Sized size n 1) (hRVh : R.Apart Vh) (hRbeta : R.Apart beta) (hVhbeta : Vh.Apart beta) :
    ∃ s', Runs (householderQr o k size m n A R Vh beta) s () s' ∧
      There s' R (k.householderQr m n (block o.zero m n a)).R ∧
      There s' Vh (k.householderQr m n (block o.zero m n a)).Vh ∧
      There s' beta (column (k.householderQr m n (block o.zero m n a)).beta) := by
  obtain ⟨s₁, htake, hmem, -, -⟩ := taking_fits (s := s) (e := Failure) [m * n] (by simpa using hroom)
  have hA₁ : There s₁ A a := by
    rw [There, hmem]
    exact hA
  have hW : (region .W s.bump.used m n).Sized size m n := region_sized (hcap ▸ hroom)
  generalize hq : k.householderQr m n (block o.zero m n a) = q
  obtain ⟨s₂, hwriteW, -⟩ := write_runs (s := s₁) Failure.stray hW q.W
  obtain ⟨s₃, hwriteR, hwroteR⟩ := write_runs (s := s₂) Failure.stray hR q.R
  obtain ⟨s₄, hwriteVh, hwroteVh⟩ := write_runs (s := s₃) Failure.stray hVh q.Vh
  obtain ⟨s₅, hwriteBeta, hwroteBeta⟩ := write_runs (s := s₄) Failure.stray hbeta (column q.beta)
  refine ⟨s₅, htake.bind ((read_runs hA₁ hA').bind ?_), ?_, ?_, hwroteBeta.there hbeta.ld⟩
  · rw [hq]
    exact hwriteW.bind (hwriteR.bind (hwriteVh.bind hwriteBeta))
  · exact hwroteBeta.apart hbeta.ld hR.ld hRbeta (hwroteVh.apart hVh.ld hR.ld hRVh (hwroteR.there hR.ld))
  · exact hwroteBeta.apart hbeta.ld hVh.ld hVhbeta (hwroteVh.there hVh.ld)

/-- What the reflectors are applied to, and what has to stay meanwhile. -/
structure Replaying (s : Scratch.State Buffer Use D) (q : Reflectors D) (j : Rotated D)
    (U S Vt Vh beta : Place Buffer Use) (u : Nat → Nat → D) : Prop where
  U : There s U u
  S : There s S (column j.S)
  Vt : There s Vt j.Vt
  Vh : There s Vh q.Vh
  beta : There s beta (column q.beta)

theorem reflect_runs {q : Reflectors D} {j : Rotated D} {u : Nat → Nat → D} {c : Nat}
    (h : Replaying s q j U S Vt Vh beta u) (hc : c < n) (hU : U.Sized size m n) (hS : S.Sized size n 1)
    (hVt : Vt.Sized size n n) (hVh : Vh.Sized size m n) (hbeta : beta.Sized size n 1)
    (hSU : S.Apart U) (hVtU : Vt.Apart U) (hVhU : Vh.Apart U) (hbetaU : beta.Apart U) :
    ∃ s', Runs (reflect o k size m n U Vh beta c) s () s' ∧
      Replaying s' q j U S Vt Vh beta (reflectOf o k m n q.Vh q.beta u c) := by
  have hvalue : block o.zero n 1 (column q.beta) c 0 = q.beta c := block_in hc Nat.one_pos
  cases hidentity : o.eq (q.beta c) o.zero with
  | true =>
    refine ⟨s, (read_runs h.beta hbeta).bind ?_, ?_⟩
    · rw [hvalue, hidentity, if_pos rfl]
      exact Runs.pure
    · rw [reflectOf, hidentity, if_pos rfl]
      exact h
  | false =>
    obtain ⟨s', hwrite, hwrote⟩ := write_runs (s := s) Failure.stray hU
      (reflected k m n c (block o.zero m n q.Vh) (q.beta c) (block o.zero m n u))
    refine ⟨s', (read_runs h.beta hbeta).bind ?_, ?_, ?_, ?_, ?_, ?_⟩
    · rw [hvalue, hidentity, if_neg Bool.false_ne_true]
      exact (read_runs h.Vh hVh).bind ((read_runs h.U hU).bind hwrite)
    · rw [reflectOf, hidentity, if_neg Bool.false_ne_true]
      exact hwrote.there hU.ld
    · exact hwrote.apart hU.ld hS.ld hSU h.S
    · exact hwrote.apart hU.ld hVt.ld hVtU h.Vt
    · exact hwrote.apart hU.ld hVh.ld hVhU h.Vh
    · exact hwrote.apart hU.ld hbeta.ld hbetaU h.beta

theorem writeV_runs {Vj : Place Buffer Use} (h : Vj.Sized size n n) (v : Nat → Nat → D) :
    ∃ s', Runs (writeV size n Vj v) s () s' ∧ ∀ (q : Place Buffer Use) (g : Nat → Nat → D),
      q.area.rows ≤ q.area.ld → q.Apart Vj → There s q g → There s' q g := by
  unfold writeV
  split
  · obtain ⟨s', hwrite, hwrote⟩ := write_runs (s := s) Failure.stray h v
    exact ⟨s', hwrite, fun q g hq hapart => hwrote.apart h.ld hq hapart⟩
  · exact ⟨s, Runs.pure, fun _ _ _ _ hthere => hthere⟩

/-- How much scratch `svd_mn` takes. -/
def need (m n : Nat) : Nat := n * n + n * n + n * n + m * n + n + m * n

theorem svdMn_runs (hroom : s.bump.used + need m n ≤ s.bump.cap) (hcap : s.bump.cap = size .pool)
    (hA : There s A a) (hA' : A.Sized size m n) (hU : U.Sized size m n) (hS : S.Sized size n 1)
    (hVt : Vt.Sized size n n) (hUbelow : Below s.bump.used U) (hSbelow : Below s.bump.used S)
    (hVtbelow : Below s.bump.used Vt) (hSU : S.Apart U) (hVtU : Vt.Apart U) (hSVt : S.Apart Vt) :
    ∃ s', Runs (svdMn o k size m n A U S Vt) s () s' ∧ There s' U (svdMnOf o k m n a).U ∧
      There s' S (column (svdMnOf o k m n a).S) ∧ There s' Vt (svdMnOf o k m n a).Vt := by
  unfold need at hroom
  obtain ⟨s₁, htake, hmem, hused, hcap₁⟩ := taking_fits (s := s) (e := Failure) [n * n, n * n, n * n, m * n, n]
    (by simp only [List.sum_cons, List.sum_nil]; omega)
  simp only [List.sum_cons, List.sum_nil] at hused
  have hA₁ : There s₁ A a := by
    rw [There, hmem]
    exact hA
  generalize hbase : s.bump.used = base at *
  -- The regions, one behind the other.
  have hR : (region .R base n n).Sized size n n := region_sized (by omega)
  have hUr : (region .Ur (base + n * n) n n).Sized size n n := region_sized (by omega)
  have hVj : (region .Vj (base + n * n + n * n) n n).Sized size n n := region_sized (by omega)
  have hVh : (region .Vh (base + n * n + n * n + n * n) m n).Sized size m n := region_sized (by omega)
  have hbeta : (region .beta (base + n * n + n * n + n * n + m * n) n 1).Sized size n 1 := region_sized (by omega)
  have hbelowUr : Below (base + n * n + n * n) (region .Ur (base + n * n) n n) := region_below (Nat.le_refl _)
  have hbelowVj : Below (base + n * n + n * n + n * n) (region .Vj (base + n * n + n * n) n n) :=
    region_below (Nat.le_refl _)
  have hbelowVh : Below (base + n * n + n * n + n * n + m * n) (region .Vh (base + n * n + n * n + n * n) m n) :=
    region_below (Nat.le_refl _)
  obtain ⟨s₂, hqr, hthereR, hthereVh, hthereBeta⟩ := householderQr_runs (o := o) (k := k) (by omega)
    (hcap₁.trans hcap) hA₁ hA' hR hVh hbeta
    ((region_below (Nat.le_refl _)).apart (by omega)) ((region_below (Nat.le_refl _)).apart (by omega))
    (hbelowVh.apart (Nat.le_refl _))
  generalize hq : k.householderQr m n (block o.zero m n a) = q at *
  generalize hj : jacobiSvd k n (block o.zero n n q.R) = j
  obtain ⟨s₃, hwriteUr, hwroteUr⟩ := write_runs (s := s₂) Failure.stray hUr j.Ur
  obtain ⟨s₄, hwriteS, hwroteS⟩ := write_runs (s := s₃) Failure.stray hS (column j.S)
  obtain ⟨s₅, hwriteVt, hwroteVt⟩ := write_runs (s := s₄) Failure.stray hVt j.Vt
  obtain ⟨s₆, hwriteV, hkeptV⟩ := writeV_runs (s := s₅) hVj j.V
  obtain ⟨s₇, hwriteU, hwroteU⟩ := write_runs (s := s₆) Failure.stray hU fun i j' =>
    if i < n then block o.zero n n j.Ur i j' else o.zero
  have hVhU : (region .Vh (base + n * n + n * n + n * n) m n).Apart U := (hUbelow.apart (by omega)).symm
  have hbetaU : (region .beta (base + n * n + n * n + n * n + m * n) n 1).Apart U := (hUbelow.apart (by omega)).symm
  have hthereUr : There s₆ (region .Ur (base + n * n) n n) j.Ur := by
    refine hkeptV _ _ hUr.ld (hbelowUr.apart (Nat.le_refl _)) ?_
    refine hwroteVt.apart hVt.ld hUr.ld (hVtbelow.apart (by omega)).symm ?_
    exact hwroteS.apart hS.ld hUr.ld (hSbelow.apart (by omega)).symm (hwroteUr.there hUr.ld)
  have hstart : Replaying s₇ q j U S Vt (region .Vh (base + n * n + n * n + n * n) m n)
      (region .beta (base + n * n + n * n + n * n + m * n) n 1)
      fun i j' => if i < n then block o.zero n n j.Ur i j' else o.zero := by
    refine ⟨hwroteU.there hU.ld, ?_, ?_, ?_, ?_⟩
    · refine hwroteU.apart hU.ld hS.ld hSU (hkeptV _ _ hS.ld (hSbelow.apart (by omega)) ?_)
      exact hwroteVt.apart hVt.ld hS.ld hSVt (hwroteS.there hS.ld)
    · exact hwroteU.apart hU.ld hVt.ld hVtU (hkeptV _ _ hVt.ld (hVtbelow.apart (by omega)) (hwroteVt.there hVt.ld))
    · refine hwroteU.apart hU.ld hVh.ld hVhU (hkeptV _ _ hVh.ld (hbelowVj.apart (Nat.le_refl _)).symm ?_)
      refine hwroteVt.apart hVt.ld hVh.ld (hVtbelow.apart (by omega)).symm ?_
      refine hwroteS.apart hS.ld hVh.ld (hSbelow.apart (by omega)).symm ?_
      exact hwroteUr.apart hUr.ld hVh.ld (hbelowUr.apart (by omega)).symm hthereVh
    · refine hwroteU.apart hU.ld hbeta.ld hbetaU (hkeptV _ _ hbeta.ld (hbelowVj.apart (by omega)).symm ?_)
      refine hwroteVt.apart hVt.ld hbeta.ld (hVtbelow.apart (by omega)).symm ?_
      refine hwroteS.apart hS.ld hbeta.ld (hSbelow.apart (by omega)).symm ?_
      exact hwroteUr.apart hUr.ld hbeta.ld (hbelowUr.apart (by omega)).symm hthereBeta
  obtain ⟨s₈, hloop, hdone⟩ := Runs.forM (reflect o k size m n U (region .Vh (base + n * n + n * n + n * n) m n)
      (region .beta (base + n * n + n * n + n * n + m * n) n 1)) (reflectOf o k m n q.Vh q.beta)
    (Q := fun u s => Replaying s q j U S Vt (region .Vh (base + n * n + n * n + n * n) m n)
      (region .beta (base + n * n + n * n + n * n + m * n) n 1) u) (l := (List.range n).reverse)
    (fun u s c hc h => reflect_runs h (List.mem_range.mp (List.mem_reverse.mp hc)) hU hS hVt hVh hbeta hSU hVtU hVhU
      hbetaU) hstart
  have hpure : svdMnOf o k m n a = ⟨(List.range n).reverse.foldl (reflectOf o k m n q.Vh q.beta) fun i j' =>
      if i < n then block o.zero n n j.Ur i j' else o.zero, j.S, j.Vt⟩ := by
    unfold svdMnOf
    rw [hq]
    dsimp only
    rw [hj]
  rw [hpure]
  refine ⟨s₈, htake.bind ?_, hdone.U, hdone.S, hdone.Vt⟩
  refine hqr.bind ((read_runs hthereR hR).bind ?_)
  rw [hj]
  exact hwriteUr.bind (hwriteS.bind (hwriteVt.bind (hwriteV.bind ((read_runs hthereUr hUr).bind
    (hwriteU.bind hloop)))))

theorem householderQr_stops (hused : s.bump.used ≤ s.bump.cap) (h : s.bump.cap < s.bump.used + m * n) :
    Stops (householderQr o k size m n A R Vh beta) s .scratch := by
  obtain ⟨l, s₁, htake, hnone⟩ := taking_short (s := s) (e := Failure) [m * n] hused (by simpa using h)
  refine htake.stops ?_
  split
  · simp at hnone
  · exact Stops.fail

theorem svdMn_stops (hused : s.bump.used ≤ s.bump.cap) (h : s.bump.cap < s.bump.used + need m n) :
    Stops (svdMn o k size m n A U S Vt) s .scratch := by
  unfold need at h
  by_cases hfive : s.bump.used + (n * n + (n * n + (n * n + (m * n + n)))) ≤ s.bump.cap
  · obtain ⟨s₁, htake, -, hused₁, hcap₁⟩ := taking_fits (s := s) (e := Failure) [n * n, n * n, n * n, m * n, n]
      (by simpa using hfive)
    simp only [List.sum_cons, List.sum_nil] at hused₁
    refine htake.stops ?_
    exact Stops.bind (householderQr_stops (by omega) (by omega))
  · obtain ⟨l, s₁, htake, hnone⟩ := taking_short (s := s) (e := Failure) [n * n, n * n, n * n, m * n, n] hused
      (by simp only [List.sum_cons, List.sum_nil]; omega)
    refine htake.stops ?_
    split
    · simp at hnone
    · exact Stops.fail

/-! ### The ways of a call -/

theorem finish_runs {r : Nat} {v : Nat → D} {scale : D} (hS : (arrayS r).Sized size r 1)
    (hthere : There s (arrayS r) (column v)) (h : (scaledBack o x r scale v).2 = true) :
    ∃ s', Runs (finish o x size r scale) s () s' ∧
      There s' (arrayS r) (column (scaledBack o x r scale v).1) ∧
      ∀ (q : Place Buffer Use) (g : Nat → Nat → D), q.area.rows ≤ q.area.ld → q.Apart (arrayS r) → There s q g →
        There s' q g := by
  obtain ⟨s', hwrite, hwrote⟩ := write_runs (s := s) Failure.stray hS (column (scaledBack o x r scale v).1)
  refine ⟨s', (read_runs hthere hS).bind (hwrite.bind ?_), hwrote.there hS.ld,
    fun q g hq hapart => hwrote.apart hS.ld hq hapart⟩
  unfold scaledBack at h
  rw [h, if_pos rfl]
  exact Runs.pure

theorem finish_stops {r : Nat} {v : Nat → D} {scale : D} (hS : (arrayS r).Sized size r 1)
    (hthere : There s (arrayS r) (column v)) (h : (scaledBack o x r scale v).2 = false) :
    Stops (finish o x size r scale) s .nonfinite := by
  obtain ⟨s', hwrite, -⟩ := write_runs (s := s) Failure.stray hS (column (scaledBack o x r scale v).1)
  refine (read_runs hthere hS).stops (hwrite.stops ?_)
  unfold scaledBack at h
  rw [h, if_neg Bool.false_ne_true]
  exact Stops.fail

theorem input_runs (scale : D) (hA : There s A a) (hA' : A.Sized size m n) (hcap : s.bump.cap = size .pool)
    (hroom : o.eq scale o.one = false → s.bump.used + m * n ≤ s.bump.cap) :
    ∃ A' s', Runs (input o size m n scale A (block o.zero m n a)) s A' s' ∧ A'.Sized size m n ∧
      There s' A' (scaledOf o scale (block o.zero m n a)) ∧
      s'.bump.used = s.bump.used + (if o.eq scale o.one then 0 else m * n) ∧ s'.bump.cap = s.bump.cap := by
  unfold input scaledOf
  cases hscale : o.eq scale o.one with
  | true =>
    refine ⟨A, s, Runs.pure, hA', hA.congr fun i hi j hj => ?_, rfl, rfl⟩
    rw [if_pos rfl, block_in (hA'.rows ▸ hi) (hA'.cols ▸ hj)]
  | false =>
    rw [if_neg Bool.false_ne_true, if_neg Bool.false_ne_true, if_neg Bool.false_ne_true]
    obtain ⟨s₁, htake, -, hused, hcap₁⟩ := taking_fits (s := s) (e := Failure) [m * n] (by simpa using hroom hscale)
    have hscaled : (region .scaled s.bump.used m n).Sized size m n := region_sized (hcap ▸ hroom hscale)
    obtain ⟨s₂, hwrite, hwrote⟩ := write_runs (s := s₁) Failure.stray hscaled
      fun i j => o.mul (block o.zero m n a i j) scale
    refine ⟨region .scaled s.bump.used m n, s₂, htake.bind (hwrite.bind Runs.pure), hscaled,
      hwrote.there hscaled.ld, ?_, ?_⟩
    · rw [hwrote.bump, hused]
      rfl
    · rw [hwrote.bump, hcap₁]

/-- How much scratch the way of `m < n` takes. -/
def needWide (m n : Nat) : Nat := n * m + n * max n m + m * n + need n m

section Arrays

variable {ldu ldvt : Nat}

/-- The caller's arrays have room for what is returned. -/
structure Room (size : Buffer → Nat) (m n ldu ldvt : Nat) : Prop where
  U : (arrayU ldu m n).Sized size m n
  S : (arrayS (min m n)).Sized size (min m n) 1
  Vt : (arrayVt ldvt n n).Sized size n n

theorem corner_sized {p : Place Buffer Use} {rows rows' cols cols' : Nat} (h : p.Sized size rows cols)
    (hrows : rows' ≤ rows) (hcols : cols' ≤ cols) :
    (⟨p.buffer, p.use, ⟨p.area.base, p.area.ld, rows', cols'⟩⟩ : Place Buffer Use).Sized size rows' cols' := by
  refine ⟨?_, ?_, rfl, rfl⟩
  · have hld := h.ld
    rw [h.rows] at hld
    exact hrows.trans hld
  · have hstop := h.stop
    unfold Area.stop at hstop ⊢
    rw [h.cols] at hstop
    exact (Nat.add_le_add_left (Nat.mul_le_mul_left _ hcols) _).trans hstop

theorem fill_runs {p q : Place Buffer Use} {rows rows' cols cols' rowsQ colsQ : Nat} {g : Nat → Nat → D}
    (h : p.Sized size rows cols) (hrows : rows' ≤ rows) (hcols : cols' ≤ cols) (hq : q.Sized size rowsQ colsQ)
    (hapart : q.Apart p) (hthere : There s q g) :
    ∃ s', Runs (fill o size p rows' cols' q) s () s' ∧
      There s' p (fun i j => if i < rows' ∧ j < cols' then block o.zero rowsQ colsQ g j i else o.zero) ∧
      ∀ (q : Place Buffer Use) (g : Nat → Nat → D), q.area.rows ≤ q.area.ld → q.buffer ≠ p.buffer → There s q g →
        There s' q g := by
  have hcorner := corner_sized h hrows hcols
  obtain ⟨s₁, hclear, hcleared⟩ := write_runs (s := s) Failure.stray h fun _ _ => o.zero
  obtain ⟨s₂, hwrite, hwrote⟩ := write_runs (s := s₁) Failure.stray hcorner fun i j => block o.zero rowsQ colsQ g j i
  refine ⟨s₂, hclear.bind ((read_runs (hcleared.apart h.ld hq.ld hapart hthere) hq).bind hwrite),
    hwrote.corner h.ld rfl rfl rfl rfl (hcleared.there h.ld), fun q g hld hbuffer hq => ?_⟩
  refine hwrote.apart hcorner.ld hld (fun heq => absurd heq hbuffer) ?_
  exact hcleared.apart h.ld hld (fun heq => absurd heq hbuffer) hq

/-- What a call leaves in the caller's arrays. -/
structure Left (s : Scratch.State Buffer Use D) (m n ldu ldvt : Nat) (d : Svd D) : Prop where
  U : There s (arrayU ldu m n) d.U
  S : There s (arrayS (min m n)) (column d.S)
  Vt : There s (arrayVt ldvt n n) d.Vt

theorem wide_runs (hmn : m < n) (hroom : s.bump.used + needWide m n ≤ s.bump.cap) (hcap : s.bump.cap = size .pool)
    (hA : There s A a) (hA' : A.Sized size m n) (h : Room size m n ldu ldvt) :
    ∃ s', Runs (wide o k size m n ldu ldvt A) s () s' ∧
      Left s' m n ldu ldvt (wideOf o m n (svdMnOf o k n m (transposed o m n a))) := by
  have hmin : min m n = m := by omega
  have hmax : max n m = n := by omega
  have hU := h.U
  have hS := h.S
  have hVt := h.Vt
  rw [hmin] at hS
  unfold needWide at hroom
  rw [hmax] at hroom
  obtain ⟨s₁, htake, hmem, hused, hcap₁⟩ := taking_fits (s := s) (e := Failure) [n * m, n * max n m, m * n]
    (by simp only [List.sum_cons, List.sum_nil, hmax]; omega)
  simp only [List.sum_cons, List.sum_nil, hmax] at hused
  have hA₁ : There s₁ A a := by
    rw [There, hmem]
    exact hA
  generalize hbase : s.bump.used = base at *
  have hnm : n * m ≤ n * n := Nat.mul_le_mul_left n hmn.le
  have hmm : m * m ≤ m * n := Nat.mul_le_mul_left m hmn.le
  have hAT : (region .AT base n m).Sized size n m := region_sized (by omega)
  have hU2 : (region .U2 (base + n * m) n m).Sized size n m := region_sized (by omega)
  have hVt2 : (region .Vt2 (base + n * m + n * n) m m).Sized size m m := region_sized (by omega)
  have hapart : (region .Vt2 (base + n * m + n * n) m m).Apart (region .U2 (base + n * m) n m) :=
    ((region_below (Nat.le_refl _)).apart (by omega)).symm
  obtain ⟨s₂, hwriteAT, hwroteAT⟩ := write_runs (s := s₁) Failure.stray hAT (transposed o m n a)
  have hbump : s₂.bump = s₁.bump := hwroteAT.bump
  obtain ⟨s₃, hsvd, hthereU2, hthereS, hthereVt2⟩ := svdMn_runs (o := o) (k := k) (by rw [hbump]; omega)
    (by rw [hbump]; omega) (hwroteAT.there hAT.ld) hAT hU2 hS hVt2
    (region_below (by rw [hbump]; omega)) (by rintro ⟨⟩) (region_below (by rw [hbump]; omega)) (by rintro ⟨⟩) hapart (by rintro ⟨⟩)
  generalize svdMnOf o k n m (transposed o m n a) = w at *
  obtain ⟨s₄, hfillU, hthereU, hkeep⟩ := fill_runs (o := o) hU (Nat.le_refl m) hmn.le hVt2 (by rintro ⟨⟩) hthereVt2
  obtain ⟨s₅, hfillVt, hthereVt, hkeep'⟩ := fill_runs (o := o) hVt hmn.le (Nat.le_refl n) hU2 (by rintro ⟨⟩)
    (hkeep _ _ hU2.ld (by rintro ⟨⟩) hthereU2)
  refine ⟨s₅, htake.bind ?_, hkeep' _ _ hU.ld (by rintro ⟨⟩) hthereU, ?_, hthereVt⟩
  · dsimp only [Bump.offsets, List.map]
    rw [hmax]
    exact (read_runs hA₁ hA').bind (hwriteAT.bind (hsvd.bind (hfillU.bind hfillVt)))
  · rw [hmin]
    exact hkeep' _ _ hS.ld (by rintro ⟨⟩) (hkeep _ _ hS.ld (by rintro ⟨⟩) hthereS)

theorem wide_stops (hused : s.bump.used ≤ s.bump.cap) (h : s.bump.cap < s.bump.used + needWide m n)
    (hcap : s.bump.cap = size .pool) (hA : There s A a) (hA' : A.Sized size m n) :
    Stops (wide o k size m n ldu ldvt A) s .scratch := by
  unfold needWide at h
  by_cases hthree : s.bump.used + (n * m + (n * max n m + m * n)) ≤ s.bump.cap
  · obtain ⟨s₁, htake, hmem, hused₁, hcap₁⟩ := taking_fits (s := s) (e := Failure) [n * m, n * max n m, m * n]
      (by simpa using hthree)
    simp only [List.sum_cons, List.sum_nil] at hused₁
    have hA₁ : There s₁ A a := by
      rw [There, hmem]
      exact hA
    have hAT : (region .AT s.bump.used n m).Sized size n m := region_sized (by omega)
    obtain ⟨s₂, hwriteAT, hwroteAT⟩ := write_runs (s := s₁) Failure.stray hAT (transposed o m n a)
    have hbump : s₂.bump = s₁.bump := hwroteAT.bump
    refine htake.stops ((read_runs hA₁ hA').stops (hwriteAT.stops (Stops.bind ?_)))
    exact svdMn_stops (by rw [hbump]; omega) (by rw [hbump]; omega)
  · obtain ⟨l, s₁, htake, hnone⟩ := taking_short (s := s) (e := Failure) [n * m, n * max n m, m * n] hused
      (by simp only [List.sum_cons, List.sum_nil]; omega)
    refine htake.stops ?_
    split
    · simp at hnone
    · exact Stops.fail

/-- How much scratch a call takes. -/
def demand (m n : Nat) (scaled : Bool) : Nat :=
  (if scaled then m * n else 0) + if m < n then needWide m n else need m n

/-- Everything up to the check of the singular values. -/
theorem decompose_runs {lda : Nat} (hcap : s.bump.cap = size .pool) (hused : s.bump.used = 0)
    (hA : There s (arrayA lda m n) a) (hA' : (arrayA lda m n).Sized size m n) (h : Room size m n ldu ldvt)
    (hroom : demand m n (!o.eq (scaleIn o x m n a) o.one) ≤ s.bump.cap) :
    ∃ A s₁ s₂, Runs (input o size m n (scaleIn o x m n a) (arrayA lda m n) (block o.zero m n a)) s A s₁ ∧
      Runs (if m < n then wide o k size m n ldu ldvt A
        else svdMn o k size m n A (arrayU ldu m n) (arrayS n) (arrayVt ldvt n n)) s₁ () s₂ ∧
      Left s₂ m n ldu ldvt (decompositionOf o x k m n a) := by
  unfold demand at hroom
  obtain ⟨A, s₁, hinput, hsized, hthere, hused₁, hcap₁⟩ := input_runs (o := o) (scaleIn o x m n a) hA hA' hcap
    (fun hscale => by
      rw [hscale, Bool.not_false, if_pos rfl] at hroom
      omega)
  have hsum : s₁.bump.used + (if m < n then needWide m n else need m n) ≤ s₁.bump.cap := by
    rw [hused₁, hused, hcap₁]
    cases hscale : o.eq (scaleIn o x m n a) o.one with
    | true =>
      rw [hscale, Bool.not_true, if_neg Bool.false_ne_true] at hroom
      rw [if_pos rfl]
      omega
    | false =>
      rw [hscale, Bool.not_false, if_pos rfl] at hroom
      rw [if_neg Bool.false_ne_true]
      omega
  refine ⟨A, s₁, ?_⟩
  by_cases hmn : m < n
  · rw [if_pos hmn] at hsum
    obtain ⟨s₂, hruns, hleft⟩ := wide_runs (o := o) (k := k) hmn hsum (hcap₁.trans hcap) hthere hsized h
    refine ⟨s₂, hinput, ?_, ?_⟩
    · rw [if_pos hmn]
      exact hruns
    · rw [decompositionOf, if_pos hmn]
      exact hleft
  · rw [if_neg hmn] at hsum
    have hS := h.S
    rw [show min m n = n by omega] at hS
    obtain ⟨s₂, hruns, hU, hSthere, hVt⟩ := svdMn_runs (o := o) (k := k) hsum (hcap₁.trans hcap) hthere hsized h.U hS
      h.Vt nofun nofun nofun nofun nofun nofun
    refine ⟨s₂, hinput, ?_, ?_⟩
    · rw [if_neg hmn]
      exact hruns
    · rw [decompositionOf, if_neg hmn]
      refine ⟨hU, ?_, hVt⟩
      rw [show min m n = n by omega]
      exact hSthere

/-- What is returned. -/
def valueOf (o : Floats D) (x : Bits D) (k : Kernels D) (m n : Nat) (a : Nat → Nat → D) : Except Failure (Svd D) :=
  let d := decompositionOf o x k m n a
  let back := scaledBack o x (min m n) (scaleIn o x m n a) d.S
  if back.2 then .ok { d with S := back.1 } else .error .nonfinite

theorem economy_spec {lda : Nat} (hcap : s.bump.cap = size .pool) (hused : s.bump.used = 0)
    (hA : There s (arrayA lda m n) a) (hA' : (arrayA lda m n).Sized size m n) (h : Room size m n ldu ldvt)
    (hfinite : maximum x m n (block o.zero m n a) < infinite)
    (hroom : demand m n (!o.eq (scaleIn o x m n a) o.one) ≤ s.bump.cap) :
    match valueOf o x k m n a with
    | .ok d => ∃ s', Runs (economy o x k size m n lda ldu ldvt) s () s' ∧ Left s' m n ldu ldvt d
    | .error e => Stops (economy o x k size m n lda ldu ldvt) s e := by
  obtain ⟨A, s₁, s₂, hinput, hruns, hleft⟩ := decompose_runs (x := x) (k := k) hcap hused hA hA' h hroom
  have hread : Runs (read size o.zero Failure.stray (arrayA lda m n)) s (block o.zero m n a) s := read_runs hA hA'
  have hcheck : ¬ infinite ≤ maximum x m n (block o.zero m n a) := Nat.not_le.mpr hfinite
  have hS : There s₂ (arrayS (min m n)) (column (decompositionOf o x k m n a).S) := hleft.S
  unfold valueOf
  dsimp only
  cases hback : (scaledBack o x (min m n) (scaleIn o x m n a) (decompositionOf o x k m n a).S).2 with
  | true =>
    rw [if_pos rfl]
    dsimp only
    obtain ⟨s₃, hfinish, hthereS, hkeep⟩ := finish_runs h.S hS hback
    refine ⟨s₃, hread.bind ?_, hkeep _ _ h.U.ld nofun hleft.U, hthereS, hkeep _ _ h.Vt.ld nofun hleft.Vt⟩
    rw [if_neg hcheck]
    refine hinput.bind ?_
    by_cases hmn : m < n
    · rw [if_pos hmn] at hruns ⊢
      rw [show min m n = m by omega] at hfinish
      exact hruns.bind hfinish
    · rw [if_neg hmn] at hruns ⊢
      rw [show min m n = n by omega] at hfinish
      exact hruns.bind hfinish
  | false =>
    rw [if_neg Bool.false_ne_true]
    dsimp only
    have hfinish := finish_stops h.S hS hback
    refine hread.stops ?_
    rw [if_neg hcheck]
    refine hinput.stops ?_
    by_cases hmn : m < n
    · rw [if_pos hmn] at hruns ⊢
      rw [show min m n = m by omega] at hfinish
      exact hruns.stops hfinish
    · rw [if_neg hmn] at hruns ⊢
      rw [show min m n = n by omega] at hfinish
      exact hruns.stops hfinish

theorem input_stops {scale : D} (hused : s.bump.used ≤ s.bump.cap) (hscale : o.eq scale o.one = false)
    (h : s.bump.cap < s.bump.used + m * n) : Stops (input o size m n scale A a) s .scratch := by
  obtain ⟨l, s₁, htake, hnone⟩ := taking_short (s := s) (e := Failure) [m * n] hused (by simpa using h)
  unfold input
  rw [hscale, if_neg Bool.false_ne_true]
  refine htake.stops ?_
  split
  · simp at hnone
  · exact Stops.fail

theorem economy_stops {lda : Nat} (hcap : s.bump.cap = size .pool) (hused : s.bump.used = 0)
    (hA : There s (arrayA lda m n) a) (hA' : (arrayA lda m n).Sized size m n)
    (hfinite : maximum x m n (block o.zero m n a) < infinite)
    (hshort : s.bump.cap < demand m n (!o.eq (scaleIn o x m n a) o.one)) :
    Stops (economy o x k size m n lda ldu ldvt) s .scratch := by
  have hcheck : ¬ infinite ≤ maximum x m n (block o.zero m n a) := Nat.not_le.mpr hfinite
  refine (read_runs hA hA').stops ?_
  rw [if_neg hcheck]
  by_cases hinput : o.eq (scaleIn o x m n a) o.one = false → s.bump.used + m * n ≤ s.bump.cap
  · obtain ⟨A, s₁, hruns, hsized, hthere, hused₁, hcap₁⟩ := input_runs (scaleIn o x m n a) hA hA' hcap hinput
    refine hruns.stops ?_
    have hle : s₁.bump.used ≤ s₁.bump.cap ∧
        s₁.bump.cap < s₁.bump.used + if m < n then needWide m n else need m n := by
      unfold demand at hshort
      rw [hused₁, hused, hcap₁]
      cases hscale : o.eq (scaleIn o x m n a) o.one with
      | true =>
        rw [hscale, Bool.not_true, if_neg Bool.false_ne_true] at hshort
        rw [if_pos rfl]
        omega
      | false =>
        have hfits := hinput hscale
        rw [hscale, Bool.not_false, if_pos rfl] at hshort
        rw [if_neg Bool.false_ne_true]
        omega
    by_cases hmn : m < n
    · rw [if_pos hmn] at hle ⊢
      exact (wide_stops hle.1 hle.2 (hcap₁.trans hcap) hthere hsized).bind
    · rw [if_neg hmn] at hle ⊢
      exact (svdMn_stops hle.1 hle.2).bind
  · obtain ⟨hscale, hfull⟩ := Classical.not_imp.mp hinput
    exact (input_stops (by omega) hscale (by omega)).bind

end Arrays

/-! ### The regions -/

section Sound

variable {cap : Nat}

theorem householderQr_sound : Keeps (fun s => s.bump.Sound cap) (householderQr o k size m n A R Vh beta) := by
  refine taking_sound.bind fun l => ?_
  split
  · exact read_keeps.bind fun _ => write_keeps.bind fun _ => write_keeps.bind fun _ => write_keeps.bind fun _ =>
      write_keeps
  · exact Keeps.fail

theorem reflect_sound (c : Nat) : Keeps (fun s => s.bump.Sound cap) (reflect o k size m n U Vh beta c) := by
  refine read_keeps.bind fun b => ?_
  split
  · exact Keeps.pure
  · exact read_keeps.bind fun _ => read_keeps.bind fun _ => write_keeps

theorem svdMn_sound : Keeps (fun s => s.bump.Sound cap) (svdMn o k size m n A U S Vt) := by
  refine taking_sound.bind fun l => ?_
  split
  · refine householderQr_sound.bind fun _ => read_keeps.bind fun _ => write_keeps.bind fun _ => write_keeps.bind
      fun _ => write_keeps.bind fun _ => Keeps.bind ?_ fun _ => read_keeps.bind fun _ => write_keeps.bind fun _ =>
        Keeps.forM reflect_sound _
    unfold writeV
    split
    · exact write_keeps
    · exact Keeps.pure
  · exact Keeps.fail

theorem fill_sound {p q : Place Buffer Use} {rows cols : Nat} :
    Keeps (fun s => s.bump.Sound cap) (fill o size p rows cols q) :=
  write_keeps.bind fun _ => read_keeps.bind fun _ => write_keeps

theorem wide_sound {ldu ldvt : Nat} : Keeps (fun s => s.bump.Sound cap) (wide o k size m n ldu ldvt A) := by
  refine taking_sound.bind fun l => ?_
  split
  · exact read_keeps.bind fun _ => write_keeps.bind fun _ => svdMn_sound.bind fun _ => fill_sound.bind fun _ =>
      fill_sound
  · exact Keeps.fail

theorem input_sound {scale : D} : Keeps (fun s => s.bump.Sound cap) (input o size m n scale A a) := by
  unfold input
  split
  · exact Keeps.pure
  · refine taking_sound.bind fun l => ?_
    split
    · exact write_keeps.bind fun _ => Keeps.pure
    · exact Keeps.fail

theorem finish_sound {r : Nat} {scale : D} : Keeps (fun s => s.bump.Sound cap) (finish o x size r scale) := by
  refine read_keeps.bind fun v => write_keeps.bind fun _ => ?_
  split
  · exact Keeps.pure
  · exact Keeps.fail

theorem economy_sound {lda ldu ldvt : Nat} :
    Keeps (fun s => s.bump.Sound cap) (economy o x k size m n lda ldu ldvt) := by
  refine read_keeps.bind fun v => ?_
  split
  · exact Keeps.fail
  · refine input_sound.bind fun A => ?_
    split
    · exact wide_sound.bind fun _ => finish_sound
    · exact svdMn_sound.bind fun _ => finish_sound

end Sound

/-! ### Sizes -/

theorem demand_le_kCap (hm : m ≤ kSvdMaxM) (hn : n ≤ kSvdMaxN) (scaled : Bool) : demand m n scaled ≤ kCap := by
  have hmn : m * n ≤ kSvdMaxM * kSvdMaxN := Nat.mul_le_mul hm hn
  have hnn : n * n ≤ kSvdMaxN * kSvdMaxN := Nat.mul_le_mul hn hn
  have hscaled : (if scaled then m * n else 0) ≤ m * n := by
    split
    · exact Nat.le_refl _
    · exact Nat.zero_le _
  unfold demand needWide need
  rw [Nat.mul_comm n m]
  unfold kCap
  unfold kSvdMaxM kSvdMaxN at *
  by_cases hlt : m < n
  · have hmm : m * m ≤ n * n := Nat.mul_le_mul hlt.le hlt.le
    rw [if_pos hlt, show max n m = n by omega]
    omega
  · rw [if_neg hlt]
    omega

/-- The documented size is enough, but for a wide matrix that is scaled. -/
theorem demand_le_documented {scaled : Bool} (h : n ≤ m ∨ scaled = false) : demand m n scaled ≤ documented m n := by
  unfold demand needWide need documented
  rw [Nat.mul_comm n m]
  by_cases hlt : m < n
  · have hmm : m * m ≤ n * n := Nat.mul_le_mul hlt.le hlt.le
    have hfalse : scaled = false := h.resolve_left (by omega)
    rw [if_pos hlt, hfalse, if_neg Bool.false_ne_true, show max n m = n by omega]
    omega
  · have hscaled : (if scaled then m * n else 0) ≤ m * n := by
      split
      · exact Nat.le_refl _
      · exact Nat.zero_le _
    rw [if_neg hlt]
    omega

theorem demand_wide (h : m < n) : demand m n true = 5 * (m * n) + n * n + 3 * (m * m) + m := by
  unfold demand needWide need
  rw [if_pos rfl, if_pos h, show max n m = n by omega, Nat.mul_comm n m]
  omega

end Proofs

/-! ## The call -/

section Call

variable {D : Type} (o : Floats D) (x : Bits D) (k : Kernels D) (m n lda ldu ldvt : Nat)

/-- The caller's array `A`. -/
def Given (a : Nat → Nat → D) (mem : Buffer → Areas.Memory Use D) : Prop := Holds (mem .A) .A ⟨0, lda, m, n⟩ a

/-- What a call returns: its code, and where that is 0 what is in the caller's arrays. -/
def returned (r : Except Failure Unit × Scratch.State Buffer Use D) :
    Except Failure (Option (Nat → Nat → D) × Option (Nat → Nat → D) × Option (Nat → Nat → D)) :=
  r.1.map fun _ => (Areas.load (ldu * n) o.zero (r.2.mem .U) .U ⟨0, ldu, m, n⟩,
    Areas.load n o.zero (r.2.mem .S) .S ⟨0, min m n, min m n, 1⟩,
    Areas.load (ldvt * n) o.zero (r.2.mem .Vt) .Vt ⟨0, ldvt, n, n⟩)

/-- The operations of a field, with scales that are powers of two. -/
structure Ideal [Field D] : Prop where
  two : (2 : D) ≠ 0
  zero : o.zero = 0
  one : o.one = 1
  mul : ∀ y z, o.mul y z = y * z
  div : ∀ y z, o.div y z = y / z
  eq : ∀ y z, o.eq y z = true ↔ y = z
  ldexp : ∀ e : Int, x.ldexp 1 e = 2 ^ e

/-- `a = U diag(S) Vt` with `r` triplets. -/
def Product [Field D] (r : Nat) (a U : Nat → Nat → D) (S : Nat → D) (Vt : Nat → Nat → D) : Prop :=
  ∀ i < m, ∀ j < n, a i j = ∑ t ∈ Finset.range r, U i t * S t * Vt t j

/-- What is promised of a call with `work`. -/
structure Meets (workFloats : Nat) (a : Nat → Nat → D) : Prop where
  scratch : ∀ mem, Given m n lda a mem → (svdEconomy o x k m n lda ldu ldvt (some workFloats) mem).1 ≠ .error .scratch ∧
    (svdEconomy o x k m n lda ldu ldvt (some workFloats) mem).1 ≠ .error .stray
  regions : ∀ mem, (svdEconomy o x k m n lda ldu ldvt (some workFloats) mem).2.bump.Sound workFloats
  pool : ∀ mem mem', Given m n lda a mem → Given m n lda a mem' →
    returned o m n ldu ldvt (svdEconomy o x k m n lda ldu ldvt (some workFloats) mem) =
      returned o m n ldu ldvt (svdEconomy o x k m n lda ldu ldvt none mem')
  wide : ∀ _ : Field D, Ideal o x → m < n →
    let scaled := scaledOf o (scaleIn o x m n a) (block o.zero m n a)
    let w := svdMnOf o k n m (transposed o m n scaled)
    Product n m m (transposed o m n scaled) w.U w.S w.Vt → ∀ mem, Given m n lda a mem → ∀ U S Vt,
      returned o m n ldu ldvt (svdEconomy o x k m n lda ldu ldvt (some workFloats) mem) =
        .ok (some U, some S, some Vt) →
      Product m n m a U (fun t => S t 0) Vt ∧ (∀ i < m, ∀ j < n, m ≤ j → U i j = 0) ∧
        (∀ i < n, ∀ j < n, m ≤ i → Vt i j = 0) ∧
        ∃ e : Int, scaleIn o x m n a = 2 ^ e ∧ ∀ t < m, S t 0 = w.S t / 2 ^ e

end Call

section Promise

variable {D : Type} {o : Floats D} {x : Bits D} {k : Kernels D} {m n lda ldu ldvt : Nat} {a : Nat → Nat → D}
  {mem : Buffer → Areas.Memory Use D}

theorem maximum_finite (h : ∀ i < m, ∀ j < n, x.magnitude (a i j) < infinite) :
    maximum x m n (block o.zero m n a) < infinite := by
  have hcol : ∀ s col, infinite ≤ (List.range m).foldl (fun s row =>
      max s (x.magnitude (block o.zero m n a row col))) s ↔
      infinite ≤ s ∨ ∃ row ∈ List.range m, infinite ≤ x.magnitude (block o.zero m n a row col) :=
    fun s col => SvdBatch8.le_foldl (p := fun row => infinite ≤ x.magnitude (block o.zero m n a row col))
      (fun _ _ => le_max_iff) _ s
  have hzero : ¬ infinite ≤ 0 := by decide
  rw [← Nat.not_le, maximum, SvdBatch8.le_foldl hcol, or_iff_right hzero]
  rintro ⟨j, hj, i, hi, hle⟩
  have hin := h i (List.mem_range.mp hi) j (List.mem_range.mp hj)
  rw [block_in (List.mem_range.mp hi) (List.mem_range.mp hj)] at hle
  omega

/-- The arguments of a call that is not refused for them. -/
structure Arguments (m n lda ldu ldvt : Nat) : Prop where
  rows : 0 < m
  cols : 0 < n
  maxRows : m ≤ kSvdMaxM
  maxCols : n ≤ kSvdMaxN
  strideA : m ≤ lda
  strideU : m ≤ ldu
  strideVt : n ≤ ldvt

theorem Arguments.room (h : Arguments m n lda ldu ldvt) (cap : Nat) :
    Room (sizes n lda ldu ldvt cap) m n ldu ldvt ∧ (arrayA lda m n).Sized (sizes n lda ldu ldvt cap) m n := by
  refine ⟨⟨⟨h.strideU, ?_, rfl, rfl⟩, ⟨Nat.le_refl _, ?_, rfl, rfl⟩, ⟨h.strideVt, ?_, rfl, rfl⟩⟩,
    ⟨h.strideA, ?_, rfl, rfl⟩⟩
  · exact (Nat.zero_add _).le
  · have hstop : (arrayS (min m n)).area.stop = 0 + min m n * 1 := rfl
    rw [hstop]
    show 0 + min m n * 1 ≤ n
    omega
  · exact (Nat.zero_add _).le
  · exact (Nat.zero_add _).le

theorem svdEconomy_economy (h : Arguments m n lda ldu ldvt) (work : Option Nat) :
    svdEconomy o x k m n lda ldu ldvt work mem =
      economy o x k (sizes n lda ldu ldvt (capacity m n work)) m n lda ldu ldvt ⟨⟨0, capacity m n work, []⟩, mem⟩ := by
  have := h.rows
  have := h.cols
  have := h.maxRows
  have := h.maxCols
  have := h.strideA
  have := h.strideU
  have := h.strideVt
  exact if_neg (by omega)

/-- With scratch enough, the outcome depends on the matrix alone. -/
theorem svdEconomy_returned (h : Arguments m n lda ldu ldvt) {work : Option Nat} (hgiven : Given m n lda a mem)
    (hfinite : maximum x m n (block o.zero m n a) < infinite)
    (hroom : demand m n (!o.eq (scaleIn o x m n a) o.one) ≤ capacity m n work) :
    returned o m n ldu ldvt (svdEconomy o x k m n lda ldu ldvt work mem) = (valueOf o x k m n a).map fun d =>
      (some (block o.zero m n d.U), some (block o.zero (min m n) 1 (column d.S)), some (block o.zero n n d.Vt)) := by
  obtain ⟨hspace, hA⟩ := h.room (capacity m n work)
  have hspec := economy_spec (o := o) (x := x) (k := k) (s := ⟨⟨0, capacity m n work, []⟩, mem⟩)
    rfl rfl hgiven hA hspace hfinite hroom
  rw [svdEconomy_economy h, returned]
  cases hvalue : valueOf o x k m n a with
  | ok d =>
    rw [hvalue] at hspec
    obtain ⟨s', hruns, hleft⟩ := hspec
    unfold Runs at hruns
    have hU := hleft.U.load_eq (z := o.zero) hspace.U.ld hspace.U.stop
    have hS := hleft.S.load_eq (z := o.zero) hspace.S.ld hspace.S.stop
    have hVt := hleft.Vt.load_eq (z := o.zero) hspace.Vt.ld hspace.Vt.stop
    rw [hruns]
    exact congrArg Except.ok (Prod.ext hU (Prod.ext hS hVt))
  | error e =>
    rw [hvalue] at hspec
    unfold Stops at hspec
    dsimp only at hspec
    rw [hspec]
    rfl

/-! ### The wide way is right -/

theorem scaleBack_foldl (scale : D) (v : Nat → D) (r t : Nat) :
    (List.range r).foldl (fun s i => (scaleBack o x scale s i).1) v t = if t < r then o.div (v t) scale else v t := by
  induction r with
  | zero => rfl
  | succ r ih =>
    rw [List.range_succ, List.foldl_append, List.foldl_cons, List.foldl_nil]
    unfold scaleBack at ih ⊢
    dsimp only at ih ⊢
    generalize (List.range r).foldl (fun s i => Function.update s i (o.div (s i) scale)) v = last at ih ⊢
    by_cases ht : t = r
    · subst ht
      rw [Function.update_self, ih, if_neg (Nat.lt_irrefl t), if_pos (Nat.lt_succ_self t)]
    · rw [Function.update_of_ne ht, ih]
      by_cases hlt : t < r
      · rw [if_pos hlt, if_pos (by omega)]
      · rw [if_neg hlt, if_neg (by omega)]

theorem scaledBack_apply {r t : Nat} {scale : D} {v : Nat → D} (h : (scaledBack o x r scale v).2 = true) (ht : t < r) :
    (scaledBack o x r scale v).1 t = o.div (v t) scale := by
  unfold scaledBack at h ⊢
  rw [untilFalse_run h, scaleBack_foldl, if_pos ht, block_in ht Nat.one_pos]
  rfl

section Exact

variable [Field D]

theorem scaleIn_power (h : Ideal o x) : ∃ e : Int, scaleIn o x m n a = 2 ^ e := by
  unfold scaleIn svdInputScale
  dsimp only
  split
  · exact ⟨0, h.one.trans (zpow_zero 2).symm⟩
  · rw [h.one]
    exact ⟨_, h.ldexp _⟩

theorem scaledOf_apply (h : Ideal o x) (scale : D) (a : Nat → Nat → D) (i j : Nat) :
    scaledOf o scale a i j = a i j * scale := by
  unfold scaledOf
  split
  · rename_i hone
    rw [(h.eq _ _).mp hone, h.one, mul_one]
  · exact h.mul _ _

theorem product_wide (h : Ideal o x) {w : Svd D} {S : Nat → D} {scale : D} (hscale : scale ≠ 0)
    (hw : Product n m m (transposed o m n (scaledOf o scale (block o.zero m n a))) w.U w.S w.Vt)
    (hS : ∀ t < m, S t = w.S t / scale) : Product m n m a (wideOf o m n w).U S (wideOf o m n w).Vt := by
  intro i hi j hj
  have hx := hw j hj i hi
  unfold transposed at hx
  rw [block_in hi hj, scaledOf_apply h, block_in hi hj] at hx
  rw [eq_div_of_mul_eq hscale hx, Finset.sum_div]
  refine Finset.sum_congr rfl fun t ht => ?_
  have htm := Finset.mem_range.mp ht
  have hU : (wideOf o m n w).U i t = w.Vt t i := (if_pos ⟨hi, htm⟩).trans (block_in htm hi)
  have hVt : (wideOf o m n w).Vt t j = w.U j t := (if_pos ⟨htm, hj⟩).trans (block_in hj htm)
  rw [hU, hVt, hS t htm]
  ring

end Exact

theorem wide_exact (hmn : m < n) [Field D] (h : Ideal o x)
    (hw : Product n m m (transposed o m n (scaledOf o (scaleIn o x m n a) (block o.zero m n a)))
      (svdMnOf o k n m (transposed o m n (scaledOf o (scaleIn o x m n a) (block o.zero m n a)))).U
      (svdMnOf o k n m (transposed o m n (scaledOf o (scaleIn o x m n a) (block o.zero m n a)))).S
      (svdMnOf o k n m (transposed o m n (scaledOf o (scaleIn o x m n a) (block o.zero m n a)))).Vt)
    {d : Svd D} (hd : valueOf o x k m n a = .ok d) :
    Product m n m a (block o.zero m n d.U) (fun t => block o.zero (min m n) 1 (column d.S) t 0)
        (block o.zero n n d.Vt) ∧
      (∀ i < m, ∀ j < n, m ≤ j → block o.zero m n d.U i j = 0) ∧
      (∀ i < n, ∀ j < n, m ≤ i → block o.zero n n d.Vt i j = 0) ∧
      ∃ e : Int, scaleIn o x m n a = 2 ^ e ∧ ∀ t < m, block o.zero (min m n) 1 (column d.S) t 0 =
        (svdMnOf o k n m (transposed o m n (scaledOf o (scaleIn o x m n a) (block o.zero m n a)))).S t / 2 ^ e := by
  have hmin : min m n = m := by omega
  unfold valueOf at hd
  have hdecomposition : decompositionOf o x k m n a = wideOf o m n
      (svdMnOf o k n m (transposed o m n (scaledOf o (scaleIn o x m n a) (block o.zero m n a)))) := if_pos hmn
  rw [hdecomposition, hmin] at hd
  generalize svdMnOf o k n m (transposed o m n (scaledOf o (scaleIn o x m n a) (block o.zero m n a))) = w at hd hw ⊢
  obtain ⟨e, he⟩ := scaleIn_power (m := m) (n := n) (a := a) h
  have hscale : scaleIn o x m n a ≠ 0 := he ▸ zpow_ne_zero e h.two
  dsimp only at hd
  split at hd
  · rename_i hback
    cases hd
    have hS : ∀ t < m, block o.zero (min m n) 1
        (column (scaledBack o x m (scaleIn o x m n a) (wideOf o m n w).S).1) t 0 = w.S t / scaleIn o x m n a := by
      intro t ht
      rw [hmin, block_in ht Nat.one_pos]
      exact (scaledBack_apply hback ht).trans (h.div _ _)
    have hproduct := product_wide h hscale hw hS
    refine ⟨fun i hi j hj => ?_, fun i hi j hj hmj => ?_, fun i hi j hj hmi => ?_, e, he, fun t ht => ?_⟩
    · rw [hproduct i hi j hj]
      refine Finset.sum_congr rfl fun t ht => ?_
      have htm := Finset.mem_range.mp ht
      rw [block_in hi (htm.trans hmn), block_in (htm.trans hmn) hj]
    · rw [block_in hi hj]
      exact (if_neg (by omega)).trans h.zero
    · rw [block_in hi hj]
      exact (if_neg (by omega)).trans h.zero
    · rw [← he]
      exact hS t ht
  · cases hd

theorem stops_scratch (h : Arguments m n lda ldu ldvt) {workFloats : Nat} (hwork : documented m n ≤ workFloats)
    (hgiven : Given m n lda a mem) (hfinite : maximum x m n (block o.zero m n a) < infinite)
    (hshort : workFloats < demand m n (!o.eq (scaleIn o x m n a) o.one)) :
    (svdEconomy o x k m n lda ldu ldvt (some workFloats) mem).1 = .error .scratch := by
  have hcap : capacity m n (some workFloats) = workFloats := if_neg (by omega)
  rw [svdEconomy_economy h, hcap]
  exact economy_stops rfl rfl hgiven (h.room _).2 hfinite hshort

/-- Memory with the caller's array. -/
def memory (lda : Nat) (a : Nat → Nat → D) : Buffer → Areas.Memory Use D := fun _ y => some (.A, a (y % lda) (y / lda))

theorem memory_given (h : m ≤ lda) : Given m n lda a (memory lda a) := by
  intro i hi j hj
  obtain ⟨-, hdiv, hmod⟩ := Area.owns_address (a := ⟨0, lda, m, n⟩) h hi hj
  rw [Nat.sub_zero] at hdiv hmod
  exact congrArg some (Prod.ext rfl (congrArg₂ a hmod hdiv))

theorem returned_error {r : Except Failure Unit × Scratch.State Buffer Use D} {e : Failure} (h : r.1 = .error e) :
    returned o m n ldu ldvt r = .error e := by
  rw [returned, h]
  rfl

theorem valueOf_error {e : Failure} (h : valueOf o x k m n a = .error e) : e = .nonfinite := by
  unfold valueOf at h
  dsimp only at h
  split at h
  · cases h
  · exact (Except.error.inj h).symm

end Promise

/-- A call with scratch of the documented size is as promised where the matrix is not scaled, or not wide, or there is
room for the copy beside all that a wide matrix takes. -/
theorem svdEconomy_meets_iff {D : Type} (o : Floats D) (x : Bits D) (k : Kernels D) {m n lda ldu ldvt : Nat}
    (h : Arguments m n lda ldu ldvt) {workFloats : Nat} (hwork : documented m n ≤ workFloats)
    (a : Nat → Nat → D) (hfinite : ∀ i < m, ∀ j < n, x.magnitude (a i j) < infinite) :
    Meets o x k m n lda ldu ldvt workFloats a ↔
      o.eq (scaleIn o x m n a) o.one = true ∨ n ≤ m ∨ 5 * (m * n) + n * n + 3 * (m * m) + m ≤ workFloats := by
  have hmaximum := maximum_finite (o := o) hfinite
  have hcap : capacity m n (some workFloats) = workFloats := if_neg (by omega)
  constructor
  · intro hmeets
    by_contra hcondition
    obtain ⟨hscale, hmn, hsmall⟩ := not_or.mp hcondition |>.imp_right not_or.mp
    have hshort : workFloats < demand m n (!o.eq (scaleIn o x m n a) o.one) := by
      rw [Bool.not_eq_true] at hscale
      rw [hscale, Bool.not_false, demand_wide (by omega)]
      omega
    exact (hmeets.scratch _ (memory_given h.strideA)).1 (stops_scratch h hwork (memory_given h.strideA) hmaximum hshort)
  · intro hcondition
    have hroom : demand m n (!o.eq (scaleIn o x m n a) o.one) ≤ workFloats := by
      obtain hscale | hmn | hlarge := hcondition
      · rw [hscale]
        exact (demand_le_documented (.inr rfl)).trans hwork
      · exact (demand_le_documented (.inl hmn)).trans hwork
      · by_cases hwide : m < n
        · refine le_trans ?_ hlarge
          rw [← demand_wide hwide]
          unfold demand
          cases !o.eq (scaleIn o x m n a) o.one with
          | true => exact Nat.le_refl _
          | false => exact Nat.add_le_add_right (Nat.zero_le _) _
        · exact (demand_le_documented (.inl (Nat.not_lt.mp hwide))).trans hwork
    have hwith : ∀ mem, Given m n lda a mem →
        returned o m n ldu ldvt (svdEconomy o x k m n lda ldu ldvt (some workFloats) mem) =
          (valueOf o x k m n a).map fun d => (some (block o.zero m n d.U),
            some (block o.zero (min m n) 1 (column d.S)), some (block o.zero n n d.Vt)) := fun mem hgiven =>
      svdEconomy_returned h hgiven hmaximum (hcap.symm ▸ hroom)
    have hpool : ∀ mem, Given m n lda a mem → returned o m n ldu ldvt (svdEconomy o x k m n lda ldu ldvt none mem) =
        (valueOf o x k m n a).map fun d => (some (block o.zero m n d.U),
          some (block o.zero (min m n) 1 (column d.S)), some (block o.zero n n d.Vt)) := fun mem hgiven =>
      svdEconomy_returned h hgiven hmaximum (demand_le_kCap h.maxRows h.maxCols _)
    have herror : ∀ mem, Given m n lda a mem → ∀ e, e ≠ .nonfinite →
        (svdEconomy o x k m n lda ldu ldvt (some workFloats) mem).1 ≠ .error e := by
      intro mem hgiven e he hfail
      have hreturned := (hwith mem hgiven).symm.trans (returned_error hfail)
      cases hvalue : valueOf o x k m n a with
      | ok d =>
        rw [hvalue] at hreturned
        cases hreturned
      | error e' =>
        rw [hvalue] at hreturned
        exact he ((Except.error.inj hreturned).symm.trans (valueOf_error hvalue))
    refine ⟨fun mem hgiven => ⟨herror mem hgiven _ nofun, herror mem hgiven _ nofun⟩, fun mem => ?_,
      fun mem mem' hgiven hgiven' => (hwith mem hgiven).trans (hpool mem' hgiven').symm, ?_⟩
    · rw [svdEconomy_economy h, hcap]
      exact economy_sound _ ⟨rfl, Nat.zero_le _, nofun, List.Pairwise.nil⟩
    · intro _ hideal hmn scaled w hw mem hgiven U S Vt hreturned
      rw [hwith mem hgiven] at hreturned
      cases hvalue : valueOf o x k m n a with
      | ok d =>
        rw [hvalue] at hreturned
        cases hreturned
        exact wide_exact hmn hideal hw hvalue
      | error e =>
        rw [hvalue] at hreturned
        cases hreturned

/-! ### A wide matrix of small values -/

/-- The bits of 2⁻¹⁰, of zero, and of values that are not scaled. -/
def bits : Bits ℚ where
  magnitude q := if q = 0 then 0 else if |q| = 1 / 1024 then 0x3a800000 else 0x3f800000
  float b := if b = 0 then 0 else if b = 0x3a800000 then 1 / 1024 else 1
  frexp q := if q = 1 / 1024 then -9 else 1
  ldexp q e := q * 2 ^ e

/-- Factors of zeros, by functions that return zeros. -/
def zeros : Kernels ℚ where
  householderQr _ _ _ := ⟨fun _ _ => 0, fun _ _ => 0, fun _ => 0, fun _ _ => 0⟩
  jacobiSvd8 _ := ⟨fun _ _ => 0, fun _ => 0, fun _ _ => 0, fun _ _ => 0⟩
  jacobiSvdNHwy _ _ := ⟨fun _ _ => 0, fun _ => 0, fun _ _ => 0, fun _ _ => 0⟩
  jacobiSvdN _ _ := ⟨fun _ _ => 0, fun _ => 0, fun _ _ => 0, fun _ _ => 0⟩
  applyHouseholder _ _ _ _ u := u

theorem svdEconomy_meets_small : Meets TwscBatch.rationals bits zeros 4 5 4 4 5 185 fun _ _ => 1 / 1024 :=
  (svdEconomy_meets_iff TwscBatch.rationals bits zeros ⟨by decide, by decide, by decide, by decide, by decide,
    by decide, by decide⟩ (by decide) (fun _ _ => 1 / 1024) (fun _ _ _ _ => by decide +kernel)).mpr
    (.inr (.inr (by decide)))

/-- Six rows and seven columns of 2⁻¹⁰: `work` of the documented size is two floats short, where the pool is not. -/
theorem svdEconomy_falls_short : documented 6 7 = 371 ∧
    (∀ mem, Given 6 7 6 (fun _ _ => 1 / 1024) mem →
      (svdEconomy TwscBatch.rationals bits zeros 6 7 6 6 7 (some 371) mem).1 = .error .scratch ∧
      ∃ r, returned TwscBatch.rationals 6 7 6 7 (svdEconomy TwscBatch.rationals bits zeros 6 7 6 6 7 none mem) =
        .ok r) ∧
    ¬ Meets TwscBatch.rationals bits zeros 6 7 6 6 7 371 fun _ _ => 1 / 1024 := by
  have harguments : Arguments 6 7 6 6 7 :=
    ⟨by decide, by decide, by decide, by decide, by decide, by decide, by decide⟩
  have hmaximum : maximum bits 6 7 (block TwscBatch.rationals.zero 6 7 fun _ _ => 1 / 1024) < infinite := by
    decide +kernel
  have hscale : TwscBatch.rationals.eq (scaleIn TwscBatch.rationals bits 6 7 fun _ _ => 1 / 1024)
      TwscBatch.rationals.one = false := by decide +kernel
  have hshort : ∀ mem, Given 6 7 6 (fun _ _ => 1 / 1024) mem →
      (svdEconomy TwscBatch.rationals bits zeros 6 7 6 6 7 (some 371) mem).1 = .error .scratch := fun mem hgiven =>
    stops_scratch harguments (by decide) hgiven hmaximum (by rw [hscale]; decide)
  refine ⟨by decide, fun mem hgiven => ⟨hshort mem hgiven, ?_⟩, fun hmeets => ?_⟩
  · rw [svdEconomy_returned harguments hgiven hmaximum (demand_le_kCap (by decide) (by decide) _)]
    have hvalue : ∃ d, valueOf TwscBatch.rationals bits zeros 6 7 (fun _ _ => 1 / 1024) = .ok d := by
      refine ⟨_, if_pos ?_⟩
      decide +kernel
    obtain ⟨d, hd⟩ := hvalue
    rw [hd]
    exact ⟨_, rfl⟩
  · exact (hmeets.scratch _ (memory_given (Nat.le_refl 6))).1 (hshort _ (memory_given (Nat.le_refl 6)))

end NssFactory.Cpu.SvdEconomy
