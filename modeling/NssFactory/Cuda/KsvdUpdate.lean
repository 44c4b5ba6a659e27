import Mathlib.Data.List.Range
import NssFactory.Cpu.TwscBatch
import NssFactory.Lib.Tasks
import NssFactory.Lib.Vectors

/-!
# The atom updates of K-SVD in parallel

`ksvd_kernel` updates atom after atom from the samples that use it. Block `b` takes the atoms `b`,
`b + G`, …; an atom waits for the lower ones that share a sample with it, by masks that
`support_kernel` has written beforehand, and raises a flag when it is done.

The program of an atom (`atomUpdate`) is a task of `Lib.Tasks`: it reads and writes entries of the
residuals, the codes and the dictionary, what a thread keeps in shared memory or registers stays
inside. The arithmetic is left open.
-/

namespace NssFactory.Cuda.KsvdUpdate

open Tasks Vectors

def kLsscSamples : Nat := 256

def kLsscSupport : Nat := 32

def kPowerIterations : Nat := 400

def kPowerTolerance : ℚ := 2 / 10 ^ 6

def kScanChunks : Nat := kLsscSamples / 32

/-- Entries of `sample_r`, `sample_a` and `dict`. -/
inductive Entry
  | residual (j i : Nat)
  | code (j k : Nat)
  | atom (k i : Nat)
  deriving DecidableEq

/-- What is used of `LsscWork` beside the entries. -/
structure Work (D : Type) where
  m : Nat
  atoms : Nat
  samples : Nat
  sampleY : Nat → Nat → D

section Kernels

variable {D : Type} (o : Floats D) (w : Work D)

/-! ## The samples of an atom -/

/-- `__ballot_sync` -/
def ballot (p : Nat → Bool) : BitVec 32 :=
  (BitVec.ofBoolListLE ((List.range 32).map p)).cast (by rw [List.length_map, List.length_range])

/-- `__popc` -/
def popc (b : BitVec 32) : Nat := (List.range 32).countP b.getLsbD

/-- The code of a sample uses the atom. -/
def used (code : D) : Bool := o.lt (o.lit (1 / 10 ^ 8)) (o.abs code)

/-- The arrays of the first warp, and the mask. -/
structure Scan (D : Type) where
  n : Nat
  support : Nat → Nat
  previous : Nat → D
  mask : Nat → BitVec 32

/-- Chunk `q` of the samples. -/
def scanChunk (nsvd : Nat) (code : Nat → D) (s : Scan D) (q : Nat) : Scan D :=
  let uses lane := used o (code (q * 32 + lane))
  let users := ballot uses
  let slot lane := s.n + popc (users &&& ((1#32 <<< lane) - 1#32))
  let kept lane := uses lane && decide (slot lane < nsvd)
  { n := s.n + popc users
    support := (List.range 32).foldl (fun f lane =>
      if kept lane then Function.update f (slot lane) (q * 32 + lane) else f) s.support
    previous := (List.range 32).foldl (fun f lane =>
      if kept lane then Function.update f (slot lane) (code (q * 32 + lane)) else f) s.previous
    mask := Function.update s.mask q (ballot kept) }

/-- `atom_users`, on arrays that hold what the atom before has left. -/
def atomUsers (nsvd : Nat) (code : Nat → D) (old : (Nat → Nat) × (Nat → D)) : Scan D :=
  let s := (List.range kScanChunks).foldl (scanChunk o nsvd code) ⟨0, old.1, old.2, fun _ => 0#32⟩
  { s with n := min s.n nsvd }

def nsvd : Nat := min w.samples kLsscSupport

/-- Codes beyond the samples are zero. -/
def padded (codes : List D) (j : Nat) : D := codes.getD j o.zero

/-- `support_kernel` -/
def supportMask (first : Entry → D) (k : Nat) : Nat → BitVec 32 :=
  (atomUsers o (nsvd w) (padded o ((List.range (min w.samples kLsscSamples)).map fun j => first (.code j k)))
    (fun _ => 0, fun _ => o.zero)).mask

/-- Whether two atoms share a sample. -/
def common (a b : Nat → BitVec 32) : Bool :=
  decide ((List.range kScanChunks).foldl (fun c q => c ||| (a q &&& b q)) 0#32 ≠ 0#32)

/-! ## The rank-one approximation -/

/-- Sums over a warp by `__shfl_xor_sync`, in every lane. -/
def butterfly (f : D → D → D) (v : Nat → D) : Nat → D :=
  [16, 8, 4, 2, 1].foldl (fun v offset lane => f (v lane) (v (lane ^^^ offset))) v

def sum (l : List Nat) (x y : Nat → D) : D := l.foldl (fun s i => o.mulAdd (x i) (y i) s) o.zero

/-- The Gram matrix of the columns of `E`; the lower triangle is computed. -/
def gram (errors : Nat → Nat → D) (t u : Nat) : D :=
  sum o (List.range w.m) (errors (max t u)) (errors (min t u))

/-- The vector of the power iteration, and the norm of the last product. -/
structure Power (D : Type) where
  vec : Nat → D
  eigenvalue : D

/-- The iterations from number `iteration` on; the test is uniform over the warp. -/
def powerIteration (g : Nat → Nat → D) (nsup : Nat) : Nat → Nat → Power D → Power D
  | 0, _, s => s
  | fuel + 1, iteration, s =>
    let product lane := if lane < nsup then sum o (List.range nsup) (g lane) s.vec else o.zero
    let norm := o.sqrt (butterfly o.add (fun lane => o.mul (product lane) (product lane)) 0)
    let normalized lane := if o.lt o.zero norm then o.div (product lane) norm else o.zero
    let change := butterfly o.max
      (fun lane => if lane < nsup then o.abs (o.sub (normalized lane) (s.vec lane)) else o.zero) 0
    let next : Power D := ⟨fun lane => if lane < nsup then normalized lane else s.vec lane, norm⟩
    if 0 < iteration ∧ o.le change (o.lit kPowerTolerance) then next
    else powerIteration g nsup fuel (iteration + 1) next

/-- The dominant pair of the Gram matrix, if its diagonal is not zero. -/
def dominant (g : Nat → Nat → D) (nsup : Nat) : Option (Power D) :=
  let top := (List.range nsup).foldl (fun top t => if 0 < t ∧ o.lt (g top top) (g t t) then t else top) 0
  if o.lt o.zero (g top top) then
    some (powerIteration o g nsup kPowerIterations 0 ⟨fun lane => g lane top, o.zero⟩)
  else none

/-- What replaces the atom and its codes: `new` and the three scalars. -/
structure Triplet (D : Type) where
  vec : Nat → D
  new : Nat → D
  scale : D
  sign : D
  inverse : D

def triplet (errors : Nat → Nat → D) (old : Nat → D) (nsup : Nat) : Option (Triplet D) :=
  (dominant o (gram o w errors) nsup).bind fun p =>
    let s0 := o.sqrt p.eigenvalue
    if o.lt o.zero s0 then
      let new i := o.div (sum o (List.range nsup) (fun t => errors t i) p.vec) s0
      let rows lane := (List.range w.m).filter fun i => i % 32 = lane
      let ip := butterfly o.add (fun lane => sum o (rows lane) old new) 0
      let n2 := butterfly o.add (fun lane => sum o (rows lane) new new) 0
      let sign := if o.lt ip o.zero then o.lit (-1) else o.one
      some ⟨p.vec, new, o.mul sign s0, sign,
        if o.lt n2 (o.lit (1 / 10 ^ 12)) then o.zero else o.div o.one (o.sqrt n2)⟩
    else none

def newAtom (p : Triplet D) (i : Nat) : D :=
  if o.eq p.inverse o.zero then if i = 0 then o.one else o.zero
  else o.mul (o.mul p.sign (p.new i)) p.inverse

/-! ## The program of an atom -/

/-- What is noted is the support with its codes. -/
abbrev Program (D : Type) := Prog Entry D (List (Nat × D))

/-- A loop that reads, with the values that it leaves. -/
def collect {α : Type} (f : α → (D → Program D) → Program D) : List α → (List D → Program D) → Program D
  | [], next => next []
  | e :: es, next => f e fun v => collect f es fun vs => next (v :: vs)

/-- A loop that writes. -/
def each {α : Type} (f : α → Program D → Program D) (es : List α) (next : Program D) : Program D := es.foldr f next

/-- The elements of `E`. -/
def elements (nsup : Nat) : List (Nat × Nat) := (List.range (nsup * w.m)).map fun e => (e / w.m, e % w.m)

/-- After the waits: `users` are the support and the codes. -/
def update (k : Nat) (users : List (Nat × D)) : Program D :=
  let nsup := users.length
  let j (t : Nat) := (users.getD t (0, o.zero)).1
  let previous (t : Nat) := (users.getD t (0, o.zero)).2
  if nsup < 1 then .ret
  else
    collect (fun i next => .read (.atom k i) next) (List.range w.m) fun old =>
    collect (fun e next => .read (.residual (j e.1) e.2) fun r => .read (.atom k e.2) fun a =>
      next (o.add (o.sub (w.sampleY (j e.1) e.2) r) (o.mul a (previous e.1)))) (elements w nsup) fun errors =>
    match triplet o w (fun t i => errors.getD (t * w.m + i) o.zero) (fun i => old.getD i o.zero) nsup with
    | none => .ret
    | some p =>
      each (fun i next => .write (.atom k i) (newAtom o p i) next) (List.range w.m)
        (each (fun e next => .read (.residual (j e.1) e.2) fun r => .read (.atom k e.2) fun a =>
          let updated := o.mul p.scale (p.vec e.1)
          .write (.residual (j e.1) e.2)
            (o.add r (o.sub (o.mul a updated) (o.mul (old.getD e.2 o.zero) (previous e.1))))
            (if e.2 = 0 then .write (.code (j e.1) k) updated next else next)) (elements w nsup) .ret)

/-- The support of a scan with its codes. -/
def users (s : Scan D) : List (Nat × D) := (List.range s.n).map fun t => (s.support t, s.previous t)

/-- Atom `k`: the scan, the waits and the update; `old` is what the support arrays hold before. -/
def atomUpdate (masks : Nat → Nat → BitVec 32) (old : Nat → (Nat → Nat) × (Nat → D)) (k : Nat) : Program D :=
  collect (fun j next => .read (.code j k) next) (List.range (min w.samples kLsscSamples)) fun codes =>
    let support := users (atomUsers o (nsvd w) (padded o codes) (old k))
    .note support
      (each (fun p next => .await p next) ((List.range k).filter fun p => common (masks p) (masks k))
        (update o w k support))

end Kernels

/-! ## The support and its mask -/

section Support

variable {D : Type} {o : Floats D} {w : Work D} {code : Nat → D} {nsvd : Nat}

theorem ballot_getLsbD (p : Nat → Bool) {lane : Nat} (h : lane < 32) : (ballot p).getLsbD lane = p lane := by
  rw [ballot, BitVec.getLsbD_cast, BitVec.getLsbD_ofBoolListLE, List.getD_eq_getElem?_getD, List.getElem?_map,
    List.getElem?_range h]
  rfl

theorem countP_below (p : Nat → Bool) (lane N : Nat) (h : lane ≤ N) :
    (List.range N).countP (fun i => p i && decide (i < lane)) = (List.range lane).countP p := by
  induction N, h using Nat.le_induction with
  | base =>
    refine List.countP_congr fun i hi => ?_
    simp [List.mem_range.mp hi]
  | succ N hle ih =>
    rw [List.range_succ, List.countP_append, ih]
    simp [Nat.not_lt.mpr hle]

theorem lanes_below : ∀ lane < 32, ∀ i < 32, ((1#32 <<< lane) - 1#32).getLsbD i = decide (i < lane) := by
  decide +kernel

theorem popc_ballot (p : Nat → Bool) : popc (ballot p) = (List.range 32).countP p := by
  refine List.countP_congr fun i hi => ?_
  rw [ballot_getLsbD p (List.mem_range.mp hi)]

theorem popc_below (p : Nat → Bool) {lane : Nat} (h : lane < 32) :
    popc (ballot p &&& ((1#32 <<< lane) - 1#32)) = (List.range lane).countP p := by
  rw [← countP_below p lane 32 h.le]
  refine List.countP_congr fun i hi => ?_
  rw [BitVec.getLsbD_and, ballot_getLsbD p (List.mem_range.mp hi), lanes_below lane h i (List.mem_range.mp hi)]

/-- How many samples before `j` use the atom. -/
def rank (o : Floats D) (code : Nat → D) (j : Nat) : Nat := (List.range j).countP fun i => used o (code i)

theorem rank_succ (j : Nat) : rank o code (j + 1) = rank o code j + if used o (code j) then 1 else 0 := by
  rw [rank, List.range_succ, List.countP_append, List.countP_singleton, rank]

theorem rank_add (j lane : Nat) :
    rank o code (j + lane) = rank o code j + (List.range lane).countP fun i => used o (code (j + i)) := by
  induction lane with
  | zero => rfl
  | succ lane ih =>
    rw [← Nat.add_assoc, rank_succ, ih, List.range_succ, List.countP_append, List.countP_singleton, Nat.add_assoc]

theorem rank_mono {j j' : Nat} (h : j ≤ j') : rank o code j ≤ rank o code j' := by
  obtain ⟨d, rfl⟩ := Nat.exists_eq_add_of_le h
  rw [rank_add]
  exact Nat.le_add_right _ _

theorem rank_lt {j j' : Nat} (h : j < j') (hused : used o (code j) = true) : rank o code j < rank o code j' := by
  refine Nat.lt_of_lt_of_le ?_ (rank_mono (Nat.succ_le_of_lt h))
  rw [rank_succ, if_pos hused]
  exact Nat.lt_succ_self _

theorem rank_inj {j j' : Nat} (hused : used o (code j) = true) (hused' : used o (code j') = true)
    (h : rank o code j = rank o code j') : j = j' := by
  obtain hlt | heq | hgt := Nat.lt_trichotomy j j'
  · have := rank_lt hlt hused
    omega
  · exact heq
  · have := rank_lt hgt hused'
    omega

/-- Every place below the count is that of a sample. -/
theorem exists_rank {N t : Nat} (h : t < rank o code N) :
    ∃ j < N, used o (code j) = true ∧ rank o code j = t := by
  induction N with
  | zero => exact absurd h (Nat.not_lt_zero t)
  | succ N ih =>
    rw [rank_succ] at h
    by_cases hlt : t < rank o code N
    · obtain ⟨j, hj, hused, hrank⟩ := ih hlt
      exact ⟨j, by omega, hused, hrank⟩
    · split at h
      · rename_i hused
        exact ⟨N, Nat.lt_succ_self N, hused, by omega⟩
      · omega

/-- Whether a sample is in the support. -/
def kept (o : Floats D) (nsvd : Nat) (code : Nat → D) (j : Nat) : Bool :=
  used o (code j) && decide (rank o code j < nsvd)

/-- Writes to places of their own. -/
theorem scatter_at {β : Type} {keep : Nat → Bool} {slot : Nat → Nat} {val : Nat → β} {l : List Nat} {a : Nat}
    (hinj : ∀ b ∈ l, keep b = true → slot b = slot a → b = a) (ha : a ∈ l) (hk : keep a = true) (f : Nat → β) :
    l.foldl (fun f lane => if keep lane then Function.update f (slot lane) (val lane) else f) f (slot a) = val a := by
  refine foldl_reaches (P := fun f : Nat → β => f (slot a) = val a) ha (fun f b hb hf => ?_) (fun f => ?_) f
  · split
    · rename_i hkeep
      by_cases hslot : slot a = slot b
      · rw [hslot, Function.update_self, hinj b hb hkeep hslot.symm]
      · rw [Function.update_of_ne hslot]
        exact hf
    · exact hf
  · rw [if_pos hk, Function.update_self]

theorem scatter_off {β : Type} {keep : Nat → Bool} {slot : Nat → Nat} {val : Nat → β} {l : List Nat} {x : Nat}
    (h : ∀ b ∈ l, keep b = true → slot b ≠ x) (f : Nat → β) :
    l.foldl (fun f lane => if keep lane then Function.update f (slot lane) (val lane) else f) f x = f x := by
  refine foldl_keeps (P := fun g : Nat → β => g x = f x) (fun g b hb hg => ?_) rfl
  split
  · rename_i hkeep
    rw [Function.update_of_ne (h b hb hkeep).symm]
    exact hg
  · exact hg

/-- The scan after the first `c` chunks. -/
structure Scanned (o : Floats D) (nsvd : Nat) (code : Nat → D) (s : Scan D) (c : Nat) : Prop where
  n : s.n = rank o code (c * 32)
  support : ∀ j < c * 32, kept o nsvd code j = true →
    s.support (rank o code j) = j ∧ s.previous (rank o code j) = code j
  mask : ∀ q < c, ∀ lane < 32, (s.mask q).getLsbD lane = kept o nsvd code (q * 32 + lane)

theorem scanChunk_scanned {s : Scan D} {c : Nat} (h : Scanned o nsvd code s c) :
    Scanned o nsvd code (scanChunk o nsvd code s c) (c + 1) := by
  have hslot : ∀ lane < 32, s.n + popc (ballot (fun lane => used o (code (c * 32 + lane))) &&&
      ((1#32 <<< lane) - 1#32)) = rank o code (c * 32 + lane) := by
    intro lane hlane
    rw [popc_below _ hlane, h.n, rank_add]
  have hkept : ∀ lane < 32, (used o (code (c * 32 + lane)) && decide (s.n + popc (ballot (fun lane =>
      used o (code (c * 32 + lane))) &&& ((1#32 <<< lane) - 1#32)) < nsvd)) =
        kept o nsvd code (c * 32 + lane) := by
    intro lane hlane
    rw [hslot lane hlane, kept]
  refine ⟨?_, fun j hj hk => ?_, fun q hq lane hlane => ?_⟩
  · unfold scanChunk
    dsimp only
    rw [popc_ballot, h.n, Nat.add_mul, Nat.one_mul, rank_add]
  · unfold scanChunk
    dsimp only
    have hused : used o (code j) = true := (Bool.and_eq_true_iff.mp hk).1
    by_cases hold : j < c * 32
    · -- The lanes of this chunk have later places.
      obtain ⟨hsupport, hprevious⟩ := h.support j hold hk
      have hoff : ∀ lane ∈ List.range 32, (used o (code (c * 32 + lane)) && decide (s.n + popc (ballot (fun lane =>
          used o (code (c * 32 + lane))) &&& ((1#32 <<< lane) - 1#32)) < nsvd)) = true →
          s.n + popc (ballot (fun lane => used o (code (c * 32 + lane))) &&& ((1#32 <<< lane) - 1#32)) ≠
            rank o code j := by
        intro lane hlane _
        rw [hslot lane (List.mem_range.mp hlane)]
        have : rank o code j < rank o code (c * 32 + lane) := rank_lt (by omega) hused
        omega
      rw [scatter_off hoff, scatter_off hoff]
      exact ⟨hsupport, hprevious⟩
    · obtain ⟨lane, rfl⟩ := Nat.exists_eq_add_of_le (Nat.not_lt.mp hold)
      have hlane : lane < 32 := by omega
      have hinj : ∀ l ∈ List.range 32, (used o (code (c * 32 + l)) && decide (s.n + popc (ballot (fun lane =>
          used o (code (c * 32 + lane))) &&& ((1#32 <<< l) - 1#32)) < nsvd)) = true →
          s.n + popc (ballot (fun lane => used o (code (c * 32 + lane))) &&& ((1#32 <<< l) - 1#32)) =
            s.n + popc (ballot (fun lane => used o (code (c * 32 + lane))) &&& ((1#32 <<< lane) - 1#32)) →
          l = lane := by
        intro l hl hkeep heq
        rw [hslot l (List.mem_range.mp hl), hslot lane hlane] at heq
        have := rank_inj (Bool.and_eq_true_iff.mp hkeep).1 hused heq
        omega
      have hmem : lane ∈ List.range 32 := List.mem_range.mpr hlane
      have hkeep := (hkept lane hlane).trans hk
      rw [← hslot lane hlane]
      exact ⟨scatter_at hinj hmem hkeep _, scatter_at hinj hmem hkeep _⟩
  · unfold scanChunk
    dsimp only
    by_cases heq : q = c
    · subst heq
      rw [Function.update_self, ballot_getLsbD _ hlane]
      exact hkept lane hlane
    · rw [Function.update_of_ne heq]
      exact h.mask q (by omega) lane hlane

theorem scanned (nsvd : Nat) (code : Nat → D) (old : (Nat → Nat) × (Nat → D)) (c : Nat) :
    Scanned o nsvd code ((List.range c).foldl (scanChunk o nsvd code) ⟨0, old.1, old.2, fun _ => 0#32⟩) c := by
  induction c with
  | zero => exact ⟨rfl, nofun, nofun⟩
  | succ c ih =>
    rw [List.range_succ, List.foldl_append]
    exact scanChunk_scanned ih

/-- The mask does not depend on what the arrays hold. -/
theorem scanChunk_same {s s' : Scan D} (h : s.n = s'.n ∧ s.mask = s'.mask) (q : Nat) :
    (scanChunk o nsvd code s q).n = (scanChunk o nsvd code s' q).n ∧
      (scanChunk o nsvd code s q).mask = (scanChunk o nsvd code s' q).mask := by
  unfold scanChunk
  dsimp only
  rw [h.1, h.2]
  exact ⟨rfl, rfl⟩

theorem atomUsers_mask (old old' : (Nat → Nat) × (Nat → D)) :
    (atomUsers o nsvd code old).mask = (atomUsers o nsvd code old').mask := by
  have hsame : ∀ q ∈ List.range kScanChunks, ∀ s s' : Scan D, s.n = s'.n ∧ s.mask = s'.mask →
      (scanChunk o nsvd code s q).n = (scanChunk o nsvd code s' q).n ∧
        (scanChunk o nsvd code s q).mask = (scanChunk o nsvd code s' q).mask :=
    fun q _ s s' h => scanChunk_same h q
  have hstart : (⟨0, old.1, old.2, fun _ => 0#32⟩ : Scan D).n = (⟨0, old'.1, old'.2, fun _ => 0#32⟩ : Scan D).n ∧
      (⟨0, old.1, old.2, fun _ => 0#32⟩ : Scan D).mask = (⟨0, old'.1, old'.2, fun _ => 0#32⟩ : Scan D).mask :=
    ⟨rfl, rfl⟩
  exact (foldl_related (R := fun s s' : Scan D => s.n = s'.n ∧ s.mask = s'.mask) hsame hstart).2

/-- The support is the same whatever the arrays hold before, and is what the mask says. -/
theorem users_spec (nsvd : Nat) (code : Nat → D) (old old' : (Nat → Nat) × (Nat → D)) :
    users (atomUsers o nsvd code old) = users (atomUsers o nsvd code old') ∧
      (atomUsers o nsvd code old).mask = (atomUsers o nsvd code old').mask ∧
      ∀ j, (∃ c, (j, c) ∈ users (atomUsers o nsvd code old)) ↔
        j < kLsscSamples ∧ ((atomUsers o nsvd code old).mask (j / 32)).getLsbD (j % 32) = true := by
  have h := scanned (o := o) nsvd code old kScanChunks
  have h' := scanned (o := o) nsvd code old' kScanChunks
  have hplace : ∀ t < min (rank o code (kScanChunks * 32)) nsvd, ∃ j < kScanChunks * 32,
      kept o nsvd code j = true ∧ rank o code j = t := by
    intro t ht
    obtain ⟨j, hj, hused, hrank⟩ := exists_rank (show t < rank o code (kScanChunks * 32) by omega)
    refine ⟨j, hj, ?_, hrank⟩
    rw [kept, hused, Bool.true_and, decide_eq_true_iff]
    omega
  have hcount : (atomUsers o nsvd code old).n = min (rank o code (kScanChunks * 32)) nsvd := congrArg (min · nsvd) h.n
  have hcount' : (atomUsers o nsvd code old').n = min (rank o code (kScanChunks * 32)) nsvd :=
    congrArg (min · nsvd) h'.n
  have hmask : ∀ j < kLsscSamples, ((atomUsers o nsvd code old).mask (j / 32)).getLsbD (j % 32) =
      kept o nsvd code j := by
    intro j hj
    have hq : j / 32 < kScanChunks := by
      unfold kLsscSamples at hj
      unfold kScanChunks kLsscSamples
      omega
    have hbit := h.mask (j / 32) hq (j % 32) (Nat.mod_lt _ (by decide))
    rw [Nat.div_add_mod'] at hbit
    exact hbit
  refine ⟨?_, ?_, fun j => ⟨?_, ?_⟩⟩
  · unfold users
    rw [hcount, hcount']
    refine List.map_congr_left fun t ht => ?_
    obtain ⟨j, hj, hk, rfl⟩ := hplace t (List.mem_range.mp ht)
    obtain ⟨hs, hp⟩ := h.support j hj hk
    obtain ⟨hs', hp'⟩ := h'.support j hj hk
    exact Prod.ext (hs.trans hs'.symm) (hp.trans hp'.symm)
  · exact atomUsers_mask old old'
  · rintro ⟨c, hmem⟩
    obtain ⟨t, ht, heq⟩ := List.mem_map.mp hmem
    rw [List.mem_range, hcount] at ht
    obtain ⟨i, hi, hk, rfl⟩ := hplace t ht
    have hji : i = j := (h.support i hi hk).1.symm.trans (congrArg Prod.fst heq)
    subst hji
    exact ⟨hi, (hmask i hi).trans hk⟩
  · rintro ⟨hj, hbit⟩
    rw [hmask j hj] at hbit
    obtain ⟨hs, hp⟩ := h.support j hj hbit
    have hrank : rank o code j < min (rank o code (kScanChunks * 32)) nsvd := by
      obtain ⟨hused, hlt⟩ := Bool.and_eq_true_iff.mp hbit
      have := rank_lt (show j < kScanChunks * 32 from hj) hused
      have := of_decide_eq_true hlt
      omega
    refine ⟨code j, List.mem_map.mpr ⟨rank o code j, ?_, Prod.ext hs hp⟩⟩
    rw [List.mem_range, hcount]
    exact hrank

theorem or_getLsbD {α : Type} {f : α → BitVec 32} {l : List α} {q : α} {i : Nat} (hq : q ∈ l)
    (h : (f q).getLsbD i = true) : (l.foldl (fun c q => c ||| f q) 0#32).getLsbD i = true := by
  refine foldl_reaches (P := fun c : BitVec 32 => c.getLsbD i = true) hq (fun c y _ hc => ?_) (fun c => ?_) _
  · rw [BitVec.getLsbD_or, hc, Bool.true_or]
  · rw [BitVec.getLsbD_or, h, Bool.or_true]

/-- Atoms with a sample in common have a bit in common. -/
theorem common_of_shared {a b : Nat → BitVec 32} {j : Nat} (hj : j < kLsscSamples)
    (ha : (a (j / 32)).getLsbD (j % 32) = true) (hb : (b (j / 32)).getLsbD (j % 32) = true) : common a b = true := by
  have hq : j / 32 ∈ List.range kScanChunks := by
    unfold kLsscSamples at hj
    rw [List.mem_range]
    unfold kScanChunks kLsscSamples
    omega
  refine decide_eq_true fun hzero => ?_
  have hbit := or_getLsbD (f := fun q => a q &&& b q) hq (i := j % 32) (by
    rw [BitVec.getLsbD_and, ha, hb]
    rfl)
  rw [hzero] at hbit
  simp at hbit

end Support

/-! ## What an atom touches -/

section Footprint

variable {D : Type} (o : Floats D) (w : Work D) (first : Entry → D)

def codesOf (m : Entry → D) (k : Nat) : List D :=
  (List.range (min w.samples kLsscSamples)).map fun j => m (.code j k)

/-- The support of an atom and its codes. -/
def supportOf (m : Entry → D) (k : Nat) : List (Nat × D) :=
  users (atomUsers o (nsvd w) (padded o (codesOf w m k)) (fun _ => 0, fun _ => o.zero))

/-- The entries of atom `k`: the residuals of its support, its codes and itself. -/
def Entries (k : Nat) : Entry → Prop
  | .residual j i => i < w.m ∧ ∃ c, (j, c) ∈ supportOf o w first k
  | .code _ k' => k' = k
  | .atom k' _ => k' = k

/-- The support that an atom finds is that of its mask. -/
def Found (k : Nat) (l : List (Nat × D)) : Prop :=
  ∀ j, (∃ c, (j, c) ∈ l) ↔ j < kLsscSamples ∧ (supportMask o w first k (j / 32)).getLsbD (j % 32) = true

variable {o w first} {k : Nat} {W : Nat → Prop}

theorem supportOf_found : Found o w first k (supportOf o w first k) :=
  (users_spec _ _ (fun _ => 0, fun _ => o.zero) (fun _ => 0, fun _ => o.zero)).2.2

/-- Atoms that share an entry have a sample in common. -/
theorem common_of_entry {p : Nat} (hp : p < k) {a : Entry} (hpa : Entries o w first p a)
    (hka : Entries o w first k a) : common (supportMask o w first p) (supportMask o w first k) = true := by
  cases a with
  | residual j i =>
    obtain ⟨hj, hbit⟩ := (supportOf_found j).mp hpa.2
    exact common_of_shared hj hbit ((supportOf_found j).mp hka.2).2
  | code j k' =>
    have := hpa.symm.trans hka
    omega
  | atom k' i =>
    have := hpa.symm.trans hka
    omega

/-! ### Loops -/

abbrev SafeAtom (o : Floats D) (w : Work D) (first : Entry → D) (k : Nat) (P : Program D) (W : Nat → Prop)
    (m : Entry → D) : Prop := Safe (Entries o w first) (Found o w first) k P W m

theorem safe_collect {α : Type} {f : α → (D → Program D) → Program D} {es : List α} {next : List D → Program D}
    (hf : ∀ e ∈ es, ∀ next, (∀ v m, SafeAtom o w first k (next v) W m) → ∀ m, SafeAtom o w first k (f e next) W m)
    (hnext : ∀ vs m, SafeAtom o w first k (next vs) W m) (m : Entry → D) :
    SafeAtom o w first k (collect f es next) W m := by
  induction es generalizing next m with
  | nil => exact hnext [] m
  | cons e es ih =>
    exact hf e List.mem_cons_self _ (fun v m => ih (fun e' he' => hf e' (List.mem_cons_of_mem _ he'))
      (fun vs m => hnext (v :: vs) m) m) m

theorem safe_each {α : Type} {f : α → Program D → Program D} {es : List α} {next : Program D}
    (hf : ∀ e ∈ es, ∀ next, (∀ m, SafeAtom o w first k next W m) → ∀ m, SafeAtom o w first k (f e next) W m)
    (hnext : ∀ m, SafeAtom o w first k next W m) (m : Entry → D) : SafeAtom o w first k (each f es next) W m := by
  induction es generalizing m with
  | nil => exact hnext m
  | cons e es ih =>
    exact hf e List.mem_cons_self _ (fun m => ih (fun e' he' => hf e' (List.mem_cons_of_mem _ he')) m) m

theorem safe_awaits {ps : List Nat} {next : Program D} {m : Entry → D} (hps : ∀ p ∈ ps, p < k)
    (h : ∀ W' : Nat → Prop, (∀ q, W q → W' q) → (∀ p ∈ ps, W' p) → SafeAtom o w first k next W' m) :
    SafeAtom o w first k (each (fun p next => .await p next) ps next) W m := by
  induction ps generalizing W with
  | nil => exact h W (fun _ hq => hq) nofun
  | cons p ps ih =>
    refine ⟨hps p List.mem_cons_self, ih (fun q hq => hps q (List.mem_cons_of_mem _ hq)) fun W' hW hall => ?_⟩
    refine h W' (fun q hq => hW q (.inl hq)) fun q hq => ?_
    cases List.mem_cons.mp hq with
    | inl heq => exact hW q (.inr heq)
    | inr hmem => exact hall q hmem

/-- The scan, which reads codes of the atom alone. -/
theorem safe_codes {js : List Nat} {next : List D → Program D} {m : Entry → D}
    (h : SafeAtom o w first k (next (js.map fun j => m (.code j k))) W m) :
    SafeAtom o w first k (collect (fun j next => .read (.code j k) next) js next) W m := by
  induction js generalizing next with
  | nil => exact h
  | cons j js ih => exact ⟨⟨rfl, fun p hp hpa => absurd hpa.symm (Nat.ne_of_lt hp)⟩, ih h⟩

theorem elements_lt {nsup : Nat} {e : Nat × Nat} (h : e ∈ elements w nsup) : e.1 < nsup ∧ e.2 < w.m := by
  obtain ⟨i, hi, rfl⟩ := List.mem_map.mp h
  have hlt := List.mem_range.mp hi
  have hm : 0 < w.m := Nat.pos_of_ne_zero fun hzero => by
    rw [hzero, Nat.mul_zero] at hlt
    exact Nat.not_lt_zero i hlt
  exact ⟨Nat.div_lt_of_lt_mul (Nat.mul_comm nsup w.m ▸ hlt), Nat.mod_lt i hm⟩

/-- The update of an atom that has waited for all that share an entry with it. -/
theorem safe_update (hW : ∀ p < k, ∀ a, Entries o w first p a → Entries o w first k a → W p) (m : Entry → D) :
    SafeAtom o w first k (update o w k (supportOf o w first k)) W m := by
  have hclear : ∀ a, Entries o w first k a → Clear (Entries o w first) k W a :=
    fun a ha => ⟨ha, fun p hp hpa => hW p hp a hpa ha⟩
  have hret : ∀ m, SafeAtom o w first k .ret W m := fun m p hp ⟨a, hpa, hka⟩ => hW p hp a hpa hka
  have hresidual : ∀ e ∈ elements w (supportOf o w first k).length,
      Clear (Entries o w first) k W (.residual ((supportOf o w first k).getD e.1 (0, o.zero)).1 e.2) := by
    intro e he
    obtain ⟨ht, hi⟩ := elements_lt he
    refine hclear _ ⟨hi, ((supportOf o w first k).getD e.1 (0, o.zero)).2, ?_⟩
    have hmem := List.getElem_mem ht
    rw [List.getElem_eq_getD (0, o.zero)] at hmem
    exact hmem
  have hatom : ∀ i, Clear (Entries o w first) k W (.atom k i) := fun i => hclear _ rfl
  have hcode : ∀ j, Clear (Entries o w first) k W (.code j k) := fun j => hclear _ rfl
  unfold update
  dsimp only
  split
  · exact hret m
  · apply safe_collect
    · intro i _ next hnext m
      exact ⟨hatom i, hnext _ m⟩
    · intro old m
      apply safe_collect
      · intro e he next hnext m
        exact ⟨hresidual e he, hatom e.2, hnext _ m⟩
      · intro errors m
        split
        · exact hret m
        · apply safe_each
          · intro i _ next hnext m
            exact ⟨hatom i, hnext _⟩
          · intro m
            apply safe_each
            · intro e he next hnext m
              refine ⟨hresidual e he, hatom e.2, hresidual e he, ?_⟩
              split
              · exact ⟨hcode _, hnext _⟩
              · exact hnext _
            · exact hret

/-- An atom whose codes have not changed touches its own entries, after the waits. -/
theorem safe_atomUpdate {old : Nat → (Nat → Nat) × (Nat → D)} {m : Entry → D}
    (hcodes : ∀ j, m (.code j k) = first (.code j k)) :
    SafeAtom o w first k (atomUpdate o w (supportMask o w first) old k) W m := by
  have hsupport : users (atomUsers o (nsvd w) (padded o ((List.range (min w.samples kLsscSamples)).map fun j =>
      m (.code j k))) (old k)) = supportOf o w first k := by
    simp only [hcodes]
    exact (users_spec _ _ _ _).1
  unfold atomUpdate
  refine safe_codes ?_
  dsimp only
  rw [hsupport]
  refine ⟨supportOf_found, safe_awaits (fun p hp => List.mem_range.mp (List.mem_of_mem_filter hp)) fun W' _ hall => ?_⟩
  refine safe_update (fun p hp a hpa hka => hall p ?_) m
  exact List.mem_filter.mpr ⟨List.mem_range.mpr hp, common_of_entry hp hpa hka⟩

/-- The codes of an atom are as they were when its turn comes. -/
theorem memory_code {old : Nat → (Nat → Nat) × (Nat → D)} (t : Nat) {j k : Nat} (htk : t ≤ k) :
    memory (atomUpdate o w (supportMask o w first) old) first t (.code j k) = first (.code j k) := by
  induction t generalizing j k with
  | zero => rfl
  | succ t ih =>
    have hsafe : SafeAtom o w first t (atomUpdate o w (supportMask o w first) old t) (fun _ => False)
        (memory (atomUpdate o w (supportMask o w first) old) first t) :=
      safe_atomUpdate fun j => ih (Nat.le_refl t)
    have hne : ¬ Entries o w first t (.code j k) := fun heq => by
      have : k = t := heq
      omega
    exact (hsafe.exec_off hne).trans (ih (by omega))

theorem safe_atoms {n : Nat} (old : Nat → (Nat → Nat) × (Nat → D)) : ∀ t < n,
    SafeAtom o w first t (atomUpdate o w (supportMask o w first) old t) (fun _ => False)
      (memory (atomUpdate o w (supportMask o w first) old) first t) := fun t _ =>
  safe_atomUpdate fun _ => memory_code t (Nat.le_refl t)

end Footprint

/-! ## The kernel -/

section Sequential

variable {D : Type} (o : Floats D) (w : Work D) (first : Entry → D)

/-- The entries before atom `t` when atoms 0, 1, 2, … are updated one after the other. -/
def sequential : Nat → Entry → D
  | 0 => first
  | t + 1 => exec (update o w t (supportOf o w (sequential t) t)) (sequential t)

variable {o w first}

theorem exec_codes {k : Nat} {js : List Nat} {next : List D → Program D} {m : Entry → D} :
    exec (collect (fun j next => .read (.code j k) next) js next) m =
      exec (next (js.map fun j => m (.code j k))) m := by
  induction js generalizing next with
  | nil => rfl
  | cons j js ih => exact ih

theorem exec_awaits {ps : List Nat} {next : Program D} {m : Entry → D} :
    exec (each (fun p next => .await p next) ps next) m = exec next m := by
  induction ps with
  | nil => rfl
  | cons p ps ih => exact ih

/-- Alone, an atom is updated from the support that it finds. -/
theorem exec_atomUpdate (masks : Nat → Nat → BitVec 32) (old : Nat → (Nat → Nat) × (Nat → D)) (k : Nat)
    (m : Entry → D) : exec (atomUpdate o w masks old k) m = exec (update o w k (supportOf o w m k)) m := by
  have hsupport : users (atomUsers o (nsvd w) (padded o (codesOf w m k)) (old k)) = supportOf o w m k :=
    (users_spec _ _ _ _).1
  unfold atomUpdate
  rw [exec_codes]
  dsimp only
  change exec (each _ _ (update o w k (users (atomUsers o (nsvd w) (padded o (codesOf w m k)) (old k))))) m = _
  rw [exec_awaits, hsupport]

theorem memory_sequential (masks : Nat → Nat → BitVec 32) (old : Nat → (Nat → Nat) × (Nat → D)) (t : Nat) :
    memory (atomUpdate o w masks old) first t = sequential o w first t := by
  induction t with
  | zero => rfl
  | succ t ih => rw [memory, sequential, exec_atomUpdate, ih]

/-- The codes of an atom at its turn are those of the beginning. -/
theorem sequential_codes (k : Nat) : codesOf w (sequential o w first k) k = codesOf w first k := by
  refine List.map_congr_left fun j _ => ?_
  rw [← memory_sequential (supportMask o w first) fun _ => (fun _ => 0, fun _ => o.zero)]
  exact memory_code k (Nat.le_refl k)

end Sequential

/-- The tasks of `ksvd_kernel`, after `support_kernel`. -/
abbrev ksvdKernel {D : Type} (o : Floats D) (w : Work D) (first : Entry → D) (old : Nat → (Nat → Nat) × (Nat → D)) :
    Nat → Program D := atomUpdate o w (supportMask o w first) old

/-- For `G` blocks and every order of their steps: the masks are those of the supports at the atoms' turns in the
sequential loop; a run has at most `N` steps and goes on until all atoms are done, when the latest values are those of
the loop; an atom finds the support of its mask; two atoms in progress have touched no common entry. -/
theorem ksvdKernel_sequential {D : Type} (o : Floats D) (w : Work D) (first : Entry → D)
    (old : Nat → (Nat → Nat) × (Nat → D)) {G : Nat} (hG : 0 < G) :
    (∀ k, (atomUsers o (nsvd w) (padded o (codesOf w (sequential o w first k) k)) (old k)).mask =
      supportMask o w first k) ∧
    ∃ N, ∀ es s, Tasks.Path w.atoms G (ksvdKernel o w first old) (start (ksvdKernel o w first old) first) es s →
      es.length ≤ N ∧
      (Finished w.atoms G s → ∀ a, s.hist a (s.latest a) = sequential o w first w.atoms a) ∧
      (¬ Finished w.atoms G s → ∃ e s', step w.atoms G (ksvdKernel o w first old) s e = some s') ∧
      (∀ b < G, (s.worker b).task < w.atoms → ∀ l, (s.worker b).noted = some l →
        Found o w first (s.worker b).task l) ∧
      ∀ b < G, ∀ b' < G, b ≠ b' → (s.worker b).task < w.atoms → (s.worker b').task < w.atoms →
        ∀ a ∈ (s.worker b).touched, a ∉ (s.worker b').touched := by
  have hsafe : ∀ t < w.atoms, SafeAtom o w first t (ksvdKernel o w first old t) (fun _ => False)
      (memory (ksvdKernel o w first old) first t) := safe_atoms old
  constructor
  · intro k
    rw [sequential_codes]
    exact atomUsers_mask _ _
  · refine ⟨remaining w.atoms G (ksvdKernel o w first old) first (start (ksvdKernel o w first old) first)
      fun b => memory (ksvdKernel o w first old) first b, fun es s hpath => ?_⟩
    obtain ⟨W, alone, hinv, hsteps⟩ := hpath.inv hsafe (Inv.start hsafe)
    refine ⟨(Nat.le_add_left _ _).trans_eq hsteps, fun hdone a => ?_, hinv.progress hG,
      fun b hb ht => (hinv.working b hb ht).noted,
      fun b hb b' hb' hne ht ht' a ha => hinv.apart hb hb' hne ht ht' ((hinv.working b hb ht).clear a ha)⟩
    rw [hinv.finished hG hdone a, memory_sequential]

section Two

open Cpu.TwscBatch (rationals)

/-- Three atoms on four samples. -/
def threeAtoms : Work ℚ := ⟨2, 3, 4, fun j i => j + i⟩

theorem ksvdKernel_sequential_two : ∃ N, ∀ es s,
    Tasks.Path 3 2 (ksvdKernel rationals threeAtoms (fun _ => 1) fun _ => (fun _ => 0, fun _ => 0))
      (start (ksvdKernel rationals threeAtoms (fun _ => 1) fun _ => (fun _ => 0, fun _ => 0)) fun _ => 1) es s →
    es.length ≤ N ∧
      (Finished 3 2 s → ∀ a, s.hist a (s.latest a) = sequential rationals threeAtoms (fun _ => 1) 3 a) := by
  obtain ⟨-, N, hN⟩ := ksvdKernel_sequential rationals threeAtoms (fun _ => 1) (fun _ => (fun _ => 0, fun _ => 0))
    (show 0 < 2 by decide)
  exact ⟨N, fun es s hpath => ⟨(hN es s hpath).1, (hN es s hpath).2.1⟩⟩

end Two

end NssFactory.Cuda.KsvdUpdate
