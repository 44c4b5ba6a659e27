import NssFactory.Lib.Haar
import Mathlib.Data.List.Basic
import Mathlib.Data.List.Nodup
import Mathlib.Data.ZMod.Basic

/-!
# BM4D's Haar transform along a group

`Haar` of `src/cpu/bm4d/bm4d.cpp`: `m` rows of `n` values in a buffer `g`, transformed level by
level with the sums going back and forth between `g` and `tmp`. Which rows a level reads and
writes does not depend on the values, so a level is a list of calls of `pair`; `Fresh` says
that no call reads a row that an earlier one of the level has written, and `run_of_fresh` that
such a level acts on all rows at once. The arithmetic is exact.
-/

namespace NssFactory.Bm4dHaar

inductive Buffer
  | g | tmp
  deriving DecidableEq, Repr

/-- A row of a buffer. -/
abbrev Row := Buffer × Nat

/-- Element `e` of each row. -/
abbrev Memory (α : Type) := Row → Nat → α

/-- The operands of a call of `pair`. -/
structure Call where
  a : Row
  b : Row
  plus : Row
  minus : Row
  deriving DecidableEq, Repr

def Call.reads (c : Call) : List Row := [c.a, c.b]

def Call.writes (c : Call) : List Row := [c.plus, c.minus]

section Pair

variable {α : Type} [CommRing α] (lanes n : Nat) (vc : α)

/-- `count` values of a row from `e` on. -/
def store (r : Row) (e count : Nat) (v : Nat → α) (mem : Memory α) : Memory α :=
  fun row x => if row = r ∧ e ≤ x ∧ x < e + count then v x else mem row x

/-- One round: both operands are read before either result is stored. -/
def round (c : Call) (e count : Nat) (mem : Memory α) : Memory α :=
  let va := mem c.a
  let vb := mem c.b
  store c.minus e count (fun x => (va x - vb x) * vc)
    (store c.plus e count (fun x => (va x + vb x) * vc) mem)

/-- `pair`: whole vectors first, then the rest one at a time. -/
def pair (c : Call) (mem : Memory α) : Memory α :=
  (List.range (n - n / lanes * lanes)).foldl (fun mem j => round vc c (n / lanes * lanes + j) 1 mem)
    ((List.range (n / lanes)).foldl (fun mem k => round vc c (k * lanes) lanes mem) mem)

def run (calls : List Call) (mem : Memory α) : Memory α :=
  calls.foldl (fun mem c => pair lanes n vc c mem) mem

end Pair

/-! ## The levels -/

/-- A level of the forward transform: the pairs from the last. -/
def forwardLevel (len : Nat) (src sums : Buffer) : List Call :=
  (List.range (len / 2)).reverse.map fun i =>
    ⟨(src, 2 * i), (src, 2 * i + 1), (sums, i), (.g, len / 2 + i)⟩

/-- The levels from `len` on, `fuel` of them at most, and the buffer of the last sums. -/
def forwardLevels : Nat → Nat → Buffer → List (List Call) × Buffer
  | 0, _, src => ([], src)
  | fuel + 1, len, src =>
    if len > 1 then
      let sums := if src = .g then .tmp else .g
      let rest := forwardLevels fuel (len / 2) sums
      (forwardLevel len src sums :: rest.1, rest.2)
    else ([], src)

/-- A level of the inverse. -/
def inverseLevel (len : Nat) (src dst : Buffer) : List Call :=
  (List.range (len / 2)).map fun i =>
    ⟨(src, i), (.g, len / 2 + i), (dst, 2 * i), (dst, 2 * i + 1)⟩

/-- `while ((1 << levels) < m) ++levels` -/
def countLevels (m : Nat) : Nat → Nat → Nat
  | 0, levels => levels
  | fuel + 1, levels => if 2 ^ levels < m then countLevels m fuel (levels + 1) else levels

/-- The levels of the inverse from `len` on. -/
def inverseLevels (m levels : Nat) : Nat → Nat → Nat → Buffer → List (List Call)
  | 0, _, _, _ => []
  | fuel + 1, len, t, src =>
    if len ≤ m then
      let dst := if ((levels : Int) - t) % 2 = 0 then .g else .tmp
      inverseLevel len src dst :: inverseLevels m levels fuel (2 * len) (t + 1) dst
    else []

section Haar

variable {α : Type} [CommRing α] (lanes n : Nat) (vc : α)

/-- `memcpy` of a row. -/
def copyRow (src dst : Row) (mem : Memory α) : Memory α :=
  fun row x => if row = dst ∧ x < n then mem src x else mem row x

/-- `Haar` with `inverse` false. -/
def forward (m : Nat) (mem : Memory α) : Memory α :=
  let levels := forwardLevels m m .g
  let mem := levels.1.foldl (fun mem level => run lanes n vc level mem) mem
  if levels.2 ≠ .g then copyRow n (levels.2, 0) (.g, 0) mem else mem

/-- `Haar` with `inverse` true. -/
def backward (m : Nat) (mem : Memory α) : Memory α :=
  (inverseLevels m (countLevels m m 0) m 2 1 .g).foldl (fun mem level => run lanes n vc level mem) mem

/-- `Haar` -/
def haar (m : Nat) (inverse : Bool) (mem : Memory α) : Memory α :=
  if inverse then backward lanes n vc m mem else forward lanes n vc m mem

end Haar

/-! ## A call -/

section Call

variable {α : Type} [CommRing α] {lanes n : Nat} {vc : α} {c : Call} {mem : Memory α}

/-- The call as far as element `e`. -/
def paired (vc : α) (c : Call) (e : Nat) (mem : Memory α) : Memory α :=
  fun row x =>
    if row = c.plus ∧ x < e then (mem c.a x + mem c.b x) * vc
    else if row = c.minus ∧ x < e then (mem c.a x - mem c.b x) * vc
    else mem row x

theorem paired_ahead {e x : Nat} {row : Row} (h : e ≤ x) : paired vc c e mem row x = mem row x := by
  rw [paired, if_neg (by omega), if_neg (by omega)]

theorem round_paired (hne : c.plus ≠ c.minus) (e count : Nat) :
    round vc c e count (paired vc c e mem) = paired vc c (e + count) mem := by
  funext row x
  by_cases hin : e ≤ x ∧ x < e + count
  · by_cases hminus : row = c.minus
    · subst hminus
      simp only [round, store]
      rw [if_pos ⟨trivial, hin⟩, paired_ahead hin.1, paired_ahead hin.1, paired,
        if_neg (fun h => hne h.1.symm), if_pos ⟨rfl, hin.2⟩]
    · by_cases hplus : row = c.plus
      · subst hplus
        simp only [round, store]
        rw [if_neg (fun h => hminus h.1), if_pos ⟨trivial, hin⟩, paired_ahead hin.1,
          paired_ahead hin.1, paired, if_pos ⟨rfl, hin.2⟩]
      · simp [round, store, paired, hminus, hplus]
  · have hsame : x < e + count ↔ x < e := by omega
    simp only [round, store]
    rw [if_neg (fun h => hin h.2), if_neg (fun h => hin h.2), paired, paired]
    simp only [hsame]

/-- However wide the vectors, a call sets the two rows from what the operands held. -/
theorem pair_eq (hne : c.plus ≠ c.minus) :
    pair lanes n vc c mem = paired vc c n mem := by
  have hstart : mem = paired vc c 0 mem := by
    funext row x
    exact (paired_ahead (Nat.zero_le x)).symm
  have hvectors : ∀ k, (List.range k).foldl (fun mem k => round vc c (k * lanes) lanes mem) mem =
      paired vc c (k * lanes) mem := by
    intro k
    induction k with
    | zero => simpa using hstart
    | succ k ih =>
      rw [List.range_succ, List.foldl_append, ih, List.foldl_cons, List.foldl_nil,
        round_paired hne, Nat.succ_mul]
  have hrest : ∀ j, (List.range j).foldl (fun mem j => round vc c (n / lanes * lanes + j) 1 mem)
      (paired vc c (n / lanes * lanes) mem) = paired vc c (n / lanes * lanes + j) mem := by
    intro j
    induction j with
    | zero => rfl
    | succ j ih =>
      rw [List.range_succ, List.foldl_append, ih, List.foldl_cons, List.foldl_nil,
        round_paired hne, Nat.add_assoc]
  have hle : n / lanes * lanes ≤ n := Nat.div_mul_le_self n lanes
  rw [pair, hvectors, hrest, Nat.add_sub_cancel' hle]

end Call

/-! ## A level -/

/-- No call reads a row that an earlier one has written. -/
def Fresh (calls : List Call) : Prop :=
  calls.Pairwise fun earlier later => ∀ r ∈ later.reads, r ∉ earlier.writes

/-- No row is written twice. -/
def Once (calls : List Call) : Prop := (calls.flatMap Call.writes).Nodup

section Level

variable {α : Type} [CommRing α] {lanes n : Nat} {vc : α} {c : Call} {mem : Memory α} {calls : List Call}

theorem paired_off {e x : Nat} {row : Row} (h : row ∉ c.writes) : paired vc c e mem row x = mem row x := by
  have hne : row ≠ c.plus ∧ row ≠ c.minus := by simpa [Call.writes] using h
  rw [paired, if_neg (fun h => hne.1 h.1), if_neg (fun h => hne.2 h.1)]

theorem Once.cons (h : Once (c :: calls)) :
    c.plus ≠ c.minus ∧ (∀ r ∈ c.writes, r ∉ calls.flatMap Call.writes) ∧ Once calls := by
  rw [Once, List.flatMap_cons, List.nodup_append'] at h
  obtain ⟨hc, hrest, hdisjoint⟩ := h
  refine ⟨by simpa [Call.writes] using hc, fun r hr hr' => hdisjoint hr hr', hrest⟩

/-- Rows that no call writes stay. -/
theorem run_off (honce : Once calls) {row : Row} (h : row ∉ calls.flatMap Call.writes) :
    run lanes n vc calls mem row = mem row := by
  induction calls generalizing mem with
  | nil => rfl
  | cons c calls ih =>
    obtain ⟨hne, -, honce⟩ := honce.cons
    rw [List.flatMap_cons, List.mem_append, not_or] at h
    rw [run, List.foldl_cons, ← run, ih honce h.2, pair_eq hne]
    funext x
    exact paired_off h.1

/-- A fresh level acts on all its rows at once. -/
theorem run_of_fresh (hfresh : Fresh calls) (honce : Once calls) (hc : c ∈ calls) {x : Nat} (hx : x < n) :
    run lanes n vc calls mem c.plus x = (mem c.a x + mem c.b x) * vc ∧
      run lanes n vc calls mem c.minus x = (mem c.a x - mem c.b x) * vc := by
  induction calls generalizing mem with
  | nil => cases hc
  | cons d calls ih =>
    obtain ⟨hne, hlast, hrest⟩ := honce.cons
    obtain ⟨hstale, hlater⟩ := List.pairwise_cons.mp hfresh
    rw [run, List.foldl_cons, ← run, pair_eq hne]
    rcases List.mem_cons.mp hc with rfl | hc
    · have hplus := hlast c.plus (by simp [Call.writes])
      have hminus := hlast c.minus (by simp [Call.writes])
      rw [run_off hrest hplus, run_off hrest hminus, paired, paired, if_pos ⟨rfl, hx⟩,
        if_neg (fun h => hne h.1.symm), if_pos ⟨rfl, hx⟩]
      exact ⟨rfl, rfl⟩
    · have ha : paired vc d n mem c.a x = mem c.a x := paired_off (hstale c hc c.a (by simp [Call.reads]))
      have hb : paired vc d n mem c.b x = mem c.b x := paired_off (hstale c hc c.b (by simp [Call.reads]))
      have h := @ih (paired vc d n mem) hlater hrest hc
      rwa [ha, hb] at h

end Level

/-! ## The levels of the forward transform -/

section Forward

variable {α : Type} [CommRing α] {lanes n : Nat} {vc : α} {mem : Memory α} {h : Nat} {src dst : Buffer}

theorem mem_forwardLevel {c : Call} : c ∈ forwardLevel (2 * h) src dst ↔
    ∃ i < h, c = ⟨(src, 2 * i), (src, 2 * i + 1), (dst, i), (.g, h + i)⟩ := by
  have hhalf : 2 * h / 2 = h := by omega
  simp only [forwardLevel, hhalf, List.mem_map, List.mem_reverse, List.mem_range]
  constructor
  · rintro ⟨i, hi, rfl⟩
    exact ⟨i, hi, rfl⟩
  · rintro ⟨i, hi, rfl⟩
    exact ⟨i, hi, rfl⟩

/-- From the last pair down, a row of `g` is read before it is written. -/
theorem forwardLevel_fresh (hne : src ≠ dst) : Fresh (forwardLevel (2 * h) src dst) := by
  have hhalf : 2 * h / 2 = h := by omega
  rw [Fresh, forwardLevel, hhalf, List.pairwise_map, List.pairwise_reverse]
  refine List.pairwise_lt_range.imp_of_mem fun {i j} hi hj hlt r hr hw => ?_
  have hi := List.mem_range.mp hi
  simp only [Call.reads, Call.writes, List.mem_cons, List.not_mem_nil, or_false] at hr hw
  rcases hr with rfl | rfl <;> rcases hw with hw | hw
  · exact hne (Prod.mk.inj hw).1
  · have := (Prod.mk.inj hw).2
    omega
  · exact hne (Prod.mk.inj hw).1
  · have := (Prod.mk.inj hw).2
    omega

theorem forwardLevel_once : Once (forwardLevel (2 * h) src dst) := by
  have hhalf : 2 * h / 2 = h := by omega
  rw [Once, List.nodup_flatMap]
  constructor
  · intro c hc
    obtain ⟨i, hi, rfl⟩ := mem_forwardLevel.mp hc
    simp only [Call.writes, List.nodup_cons, List.mem_singleton, List.not_mem_nil, not_false_eq_true,
      List.nodup_nil, and_true]
    intro hsame
    have := (Prod.mk.inj hsame).2
    omega
  · rw [forwardLevel, hhalf, List.pairwise_map, List.pairwise_reverse]
    refine List.pairwise_lt_range.imp_of_mem fun {i j} hi hj hlt => ?_
    have hi := List.mem_range.mp hi
    have hj := List.mem_range.mp hj
    intro r hr hr'
    simp only [Call.writes, List.mem_cons, List.not_mem_nil, or_false] at hr hr'
    rcases hr with rfl | rfl <;> rcases hr' with hr' | hr' <;>
    · have := (Prod.mk.inj hr').2
      omega

/-- A level: the sums of the pairs, their differences, and nothing else. -/
theorem run_forwardLevel (hne : src ≠ dst) :
    (∀ i < h, ∀ x < n, run lanes n vc (forwardLevel (2 * h) src dst) mem (dst, i) x =
      Haar.sums vc (fun i => mem (src, i) x) i) ∧
    (∀ i < h, ∀ x < n, run lanes n vc (forwardLevel (2 * h) src dst) mem (.g, h + i) x =
      Haar.differences vc (fun i => mem (src, i) x) i) ∧
    (∀ b i, 2 * h ≤ i → run lanes n vc (forwardLevel (2 * h) src dst) mem (b, i) = mem (b, i)) := by
  refine ⟨fun i hi x hx => ?_, fun i hi x hx => ?_, fun b i hi => ?_⟩
  · have hc : ⟨(src, 2 * i), (src, 2 * i + 1), (dst, i), (.g, h + i)⟩ ∈ forwardLevel (2 * h) src dst :=
      mem_forwardLevel.mpr ⟨i, hi, rfl⟩
    exact (run_of_fresh (forwardLevel_fresh hne) forwardLevel_once hc hx).1
  · have hc : ⟨(src, 2 * i), (src, 2 * i + 1), (dst, i), (.g, h + i)⟩ ∈ forwardLevel (2 * h) src dst :=
      mem_forwardLevel.mpr ⟨i, hi, rfl⟩
    exact (run_of_fresh (forwardLevel_fresh hne) forwardLevel_once hc hx).2
  refine run_off forwardLevel_once fun hw => ?_
  obtain ⟨c, hc, hw⟩ := List.mem_flatMap.mp hw
  obtain ⟨j, hj, rfl⟩ := mem_forwardLevel.mp hc
  simp only [Call.writes, List.mem_cons, List.not_mem_nil, or_false, Prod.mk.injEq] at hw
  omega

def other (src : Buffer) : Buffer := if src = .g then .tmp else .g

theorem other_ne : src ≠ other src := by
  cases src <;> decide

theorem forwardLevels_succ {fuel k : Nat} : forwardLevels (fuel + 1) (2 ^ (k + 1)) src =
    (forwardLevel (2 * 2 ^ k) src (other src) :: (forwardLevels fuel (2 ^ k) (other src)).1,
      (forwardLevels fuel (2 ^ k) (other src)).2) := by
  have hpos : 0 < 2 ^ k := Nat.two_pow_pos k
  have hpow : 2 ^ (k + 1) = 2 * 2 ^ k := by ring
  have hhalf : 2 * 2 ^ k / 2 = 2 ^ k := by omega
  rw [forwardLevels, hpow, if_pos (by omega), hhalf]
  rfl

theorem forwardLevels_one {fuel : Nat} : forwardLevels fuel 1 src = ([], src) := by
  cases fuel with
  | zero => rfl
  | succ fuel => rw [forwardLevels, if_neg (by decide)]

/-- The levels from `2 ^ k` rows of `src` on: the last sum in one of the buffers, the rest of
the transform in `g`. -/
theorem foldl_forwardLevels {k fuel : Nat} (hfuel : k ≤ fuel) :
    let levels := forwardLevels fuel (2 ^ k) src
    let out := levels.1.foldl (fun mem level => run lanes n vc level mem) mem
    (∀ x < n, out (levels.2, 0) x = Haar.transform vc k (fun i => mem (src, i) x) 0) ∧
    (∀ i, 0 < i → i < 2 ^ k → ∀ x < n, out (.g, i) x = Haar.transform vc k (fun i => mem (src, i) x) i) ∧
    (∀ b i, 2 ^ k ≤ i → out (b, i) = mem (b, i)) := by
  induction k generalizing fuel src mem with
  | zero =>
    simp only [Nat.pow_zero, forwardLevels_one, List.foldl_nil]
    exact ⟨fun _ _ => rfl, fun i h0 h1 => by omega, fun _ _ _ => trivial⟩
  | succ k ih =>
    obtain ⟨fuel, rfl⟩ : ∃ f, fuel = f + 1 := ⟨fuel - 1, by omega⟩
    have hpow : 2 ^ (k + 1) = 2 * 2 ^ k := by ring
    have hpos : 0 < 2 ^ k := Nat.two_pow_pos k
    obtain ⟨hsums, hdiffs, hoff⟩ := @run_forwardLevel α _ lanes n vc mem (2 ^ k) src (other src) other_ne
    obtain ⟨hzero, hrows, hrest⟩ := @ih (run lanes n vc (forwardLevel (2 * 2 ^ k) src (other src)) mem)
      (other src) fuel (by omega)
    simp only [forwardLevels_succ, List.foldl_cons]
    have hcolumn : ∀ i < 2 ^ k, ∀ x < n, Haar.transform vc k (fun i => run lanes n vc
        (forwardLevel (2 * 2 ^ k) src (other src)) mem (other src, i) x) i =
          Haar.transform vc (k + 1) (fun i => mem (src, i) x) i := by
      intro i hi x hx
      rw [Haar.transform_low hi]
      exact Haar.transform_congr (fun j hj => hsums j hj x hx) hi
    refine ⟨fun x hx => ?_, fun i h0 hi x hx => ?_, fun b i hi => ?_⟩
    · rw [hzero x hx, hcolumn 0 hpos x hx]
    · by_cases hlow : i < 2 ^ k
      · rw [hrows i h0 hlow x hx, hcolumn i hlow x hx]
      · have hdiff := hdiffs (i - 2 ^ k) (by omega) x hx
        rw [Nat.add_sub_cancel' (by omega)] at hdiff
        rw [hrest .g i (by omega), hdiff, Haar.transform_high (by omega)]
    · rw [hrest b i (by omega), hoff b i (by omega)]

/-- The forward transform ends in `g`, whichever buffer the last sums were in. -/
theorem forward_spec {k : Nat} :
    (∀ i < 2 ^ k, ∀ x < n, forward lanes n vc (2 ^ k) mem (.g, i) x =
      Haar.transform vc k (fun i => mem (.g, i) x) i) ∧
    (∀ i, 2 ^ k ≤ i → forward lanes n vc (2 ^ k) mem (.g, i) = mem (.g, i)) := by
  obtain ⟨hzero, hrows, hrest⟩ := @foldl_forwardLevels α _ lanes n vc mem .g k (2 ^ k) (Nat.le_of_lt k.lt_two_pow_self)
  have hpos : 0 < 2 ^ k := Nat.two_pow_pos k
  simp only [forward]
  by_cases hend : (forwardLevels (2 ^ k) (2 ^ k) .g).2 = .g
  · rw [if_neg (not_not_intro hend)]
    rw [hend] at hzero
    refine ⟨fun i hi x hx => ?_, hrest .g⟩
    rcases Nat.eq_zero_or_pos i with rfl | h0
    · exact hzero x hx
    · exact hrows i h0 hi x hx
  · rw [if_pos hend]
    refine ⟨fun i hi x hx => ?_, fun i hi => ?_⟩
    · rcases Nat.eq_zero_or_pos i with rfl | h0
      · rw [copyRow, if_pos ⟨rfl, hx⟩]
        exact hzero x hx
      · rw [copyRow, if_neg (fun h => Nat.ne_of_gt h0 (Prod.mk.inj h.1).2)]
        exact hrows i h0 hi x hx
    · rw [← hrest .g i hi]
      funext x
      exact if_neg fun h => by have := (Prod.mk.inj h.1).2; omega

end Forward

/-! ## The levels of the inverse -/

section Inverse

variable {α : Type} [CommRing α] {lanes n : Nat} {vc : α} {mem : Memory α} {h : Nat} {src dst : Buffer}

theorem mem_inverseLevel {c : Call} : c ∈ inverseLevel (2 * h) src dst ↔
    ∃ i < h, c = ⟨(src, i), (.g, h + i), (dst, 2 * i), (dst, 2 * i + 1)⟩ := by
  have hhalf : 2 * h / 2 = h := by omega
  simp only [inverseLevel, hhalf, List.mem_map, List.mem_range]
  constructor
  · rintro ⟨i, hi, rfl⟩
    exact ⟨i, hi, rfl⟩
  · rintro ⟨i, hi, rfl⟩
    exact ⟨i, hi, rfl⟩

/-- From the first pair up, a row of `g` is read before it is written; a level of one pair may
be in place. -/
theorem inverseLevel_fresh (hne : src ≠ dst ∨ h = 1) : Fresh (inverseLevel (2 * h) src dst) := by
  have hhalf : 2 * h / 2 = h := by omega
  rw [Fresh, inverseLevel, hhalf, List.pairwise_map]
  refine List.pairwise_lt_range.imp_of_mem fun {i j} hi hj hlt r hr hw => ?_
  have hi := List.mem_range.mp hi
  have hj := List.mem_range.mp hj
  have hne : src ≠ dst := hne.resolve_right (by omega)
  simp only [Call.reads, Call.writes, List.mem_cons, List.not_mem_nil, or_false] at hr hw
  rcases hr with rfl | rfl <;> rcases hw with hw | hw
  · exact hne (Prod.mk.inj hw).1
  · exact hne (Prod.mk.inj hw).1
  · have := (Prod.mk.inj hw).2
    omega
  · have := (Prod.mk.inj hw).2
    omega

theorem inverseLevel_once : Once (inverseLevel (2 * h) src dst) := by
  have hhalf : 2 * h / 2 = h := by omega
  rw [Once, List.nodup_flatMap]
  constructor
  · intro c hc
    obtain ⟨i, hi, rfl⟩ := mem_inverseLevel.mp hc
    simp [Call.writes]
  · rw [inverseLevel, hhalf, List.pairwise_map]
    refine List.pairwise_lt_range.imp fun {i j} hlt => ?_
    intro r hr hr'
    simp only [Call.writes, List.mem_cons, List.not_mem_nil, or_false] at hr hr'
    rcases hr with rfl | rfl <;> rcases hr' with hr' | hr' <;>
    · have := (Prod.mk.inj hr').2
      omega

/-- A level of the inverse: each sum and its difference give a pair of rows. -/
theorem run_inverseLevel (hne : src ≠ dst ∨ h = 1) :
    (∀ i < h, ∀ x < n, run lanes n vc (inverseLevel (2 * h) src dst) mem (dst, 2 * i) x =
      (mem (src, i) x + mem (.g, h + i) x) * vc) ∧
    (∀ i < h, ∀ x < n, run lanes n vc (inverseLevel (2 * h) src dst) mem (dst, 2 * i + 1) x =
      (mem (src, i) x - mem (.g, h + i) x) * vc) ∧
    (∀ b i, 2 * h ≤ i → run lanes n vc (inverseLevel (2 * h) src dst) mem (b, i) = mem (b, i)) := by
  refine ⟨fun i hi x hx => ?_, fun i hi x hx => ?_, fun b i hi => ?_⟩
  · have hc : ⟨(src, i), (.g, h + i), (dst, 2 * i), (dst, 2 * i + 1)⟩ ∈ inverseLevel (2 * h) src dst :=
      mem_inverseLevel.mpr ⟨i, hi, rfl⟩
    exact (run_of_fresh (inverseLevel_fresh hne) inverseLevel_once hc hx).1
  · have hc : ⟨(src, i), (.g, h + i), (dst, 2 * i), (dst, 2 * i + 1)⟩ ∈ inverseLevel (2 * h) src dst :=
      mem_inverseLevel.mpr ⟨i, hi, rfl⟩
    exact (run_of_fresh (inverseLevel_fresh hne) inverseLevel_once hc hx).2
  · refine run_off inverseLevel_once fun hw => ?_
    obtain ⟨c, hc, hw⟩ := List.mem_flatMap.mp hw
    obtain ⟨j, hj, rfl⟩ := mem_inverseLevel.mp hc
    simp only [Call.writes, List.mem_cons, List.not_mem_nil, or_false, Prod.mk.injEq] at hw
    omega

theorem countLevels_eq {k fuel l : Nat} (hl : l ≤ k) (hfuel : k ≤ l + fuel) :
    countLevels (2 ^ k) fuel l = k := by
  induction fuel generalizing l with
  | zero =>
    obtain rfl : l = k := by omega
    rfl
  | succ fuel ih =>
    rw [countLevels]
    by_cases hlt : l < k
    · rw [if_pos (Nat.pow_lt_pow_right (by decide) hlt)]
      exact ih hlt (by omega)
    · obtain rfl : l = k := by omega
      rw [if_neg (Nat.lt_irrefl _)]

/-- The buffer that holds the rows after level `t` of `k`. -/
def bufferAfter (k t : Nat) : Buffer := if ((k : Int) - t) % 2 = 0 then .g else .tmp

theorem bufferAfter_self (k : Nat) : bufferAfter k k = .g := if_pos (by omega)

theorem bufferAfter_ne (k t : Nat) : bufferAfter k t ≠ bufferAfter k (t + 1) := by
  rw [bufferAfter, bufferAfter]
  by_cases heven : ((k : Int) - t) % 2 = 0
  · rw [if_pos heven, if_neg (by push_cast; omega)]
    decide
  · rw [if_neg heven, if_pos (by push_cast; omega)]
    decide

theorem inverseLevels_succ {k t fuel : Nat} (ht : t < k) : inverseLevels (2 ^ k) k (fuel + 1) (2 * 2 ^ t) (t + 1) src =
    inverseLevel (2 * 2 ^ t) src (bufferAfter k (t + 1)) ::
      inverseLevels (2 ^ k) k fuel (2 * 2 ^ (t + 1)) (t + 2) (bufferAfter k (t + 1)) := by
  have hle : 2 * 2 ^ t ≤ 2 ^ k := by
    rw [← Nat.pow_succ']
    exact Nat.pow_le_pow_right (by decide) ht
  rw [inverseLevels, if_pos hle, ← Nat.pow_succ', ← Nat.pow_succ']
  rfl

theorem inverseLevels_end {k fuel t : Nat} : inverseLevels (2 ^ k) k fuel (2 * 2 ^ k) t src = [] := by
  have hpos : 0 < 2 ^ k := Nat.two_pow_pos k
  cases fuel with
  | zero => rfl
  | succ fuel => rw [inverseLevels, if_neg (by omega)]

/-- The levels of the inverse from the one after `t` on. -/
theorem foldl_inverseLevels {k t fuel : Nat} {f : Nat → Nat → α} (ht : t ≤ k) (hfuel : k ≤ t + fuel)
    (hsrc : src = bufferAfter k t ∨ t = 0 ∧ src = .g)
    (hrows : ∀ i < 2 ^ t, ∀ x < n, mem (src, i) x = Haar.inverse vc t (fun i => f i x) i)
    (hrest : ∀ i, 2 ^ t ≤ i → ∀ x, mem (.g, i) x = f i x) :
    let out := (inverseLevels (2 ^ k) k fuel (2 * 2 ^ t) (t + 1) src).foldl
      (fun mem level => run lanes n vc level mem) mem
    (∀ i < 2 ^ k, ∀ x < n, out (.g, i) x = Haar.inverse vc k (fun i => f i x) i) ∧
    (∀ i, 2 ^ k ≤ i → ∀ x, out (.g, i) x = f i x) := by
  induction hd : k - t generalizing t fuel src mem with
  | zero =>
    obtain rfl : t = k := by omega
    have hg : src = .g := by
      rcases hsrc with rfl | ⟨-, rfl⟩
      · exact bufferAfter_self t
      · rfl
    subst hg
    simp only [inverseLevels_end, List.foldl_nil]
    exact ⟨hrows, hrest⟩
  | succ d ih =>
    obtain ⟨fuel, rfl⟩ : ∃ f, fuel = f + 1 := ⟨fuel - 1, by omega⟩
    have hne : src ≠ bufferAfter k (t + 1) ∨ 2 ^ t = 1 := by
      rcases hsrc with rfl | ⟨rfl, -⟩
      · exact .inl (bufferAfter_ne k t)
      · exact .inr rfl
    have hpow : 2 ^ (t + 1) = 2 * 2 ^ t := by ring
    obtain ⟨heven, hodd, hoff⟩ := @run_inverseLevel α _ lanes n vc mem (2 ^ t) src (bufferAfter k (t + 1)) hne
    rw [inverseLevels_succ (by omega), List.foldl_cons]
    refine ih (t := t + 1) (by omega) (by omega) (.inl rfl) (fun i hi x hx => ?_) (fun i hi x => ?_) (by omega)
    · by_cases hpar : i % 2 = 0
      · have h := heven (i / 2) (by omega) x hx
        rw [show 2 * (i / 2) = i by omega] at h
        rw [h, hrows _ (by omega) x hx, hrest _ (by omega), Haar.inverse_even hpar]
      · have h := hodd (i / 2) (by omega) x hx
        rw [show 2 * (i / 2) + 1 = i by omega] at h
        rw [h, hrows _ (by omega) x hx, hrest _ (by omega), Haar.inverse_odd hpar]
    · rw [hoff .g i (by omega), hrest i (by omega)]

theorem backward_spec {k : Nat} :
    (∀ i < 2 ^ k, ∀ x < n, backward lanes n vc (2 ^ k) mem (.g, i) x =
      Haar.inverse vc k (fun i => mem (.g, i) x) i) ∧
    (∀ i, 2 ^ k ≤ i → backward lanes n vc (2 ^ k) mem (.g, i) = mem (.g, i)) := by
  have hk : k ≤ 2 ^ k := Nat.le_of_lt k.lt_two_pow_self
  have hcount : countLevels (2 ^ k) (2 ^ k) 0 = k := countLevels_eq (by omega) (by omega)
  obtain ⟨hrows, hrest⟩ := @foldl_inverseLevels α _ lanes n vc mem .g k 0 (2 ^ k) (fun i x => mem (.g, i) x)
    (by omega) (by omega) (.inr ⟨rfl, rfl⟩) (fun i hi x _ => rfl) (fun i _ x => rfl)
  rw [backward, hcount]
  exact ⟨hrows, fun i hi => funext fun x => hrest i hi x⟩

end Inverse

/-! ## The transform -/

/-- A level that may run in place: no stale row is read, and all its rows are below `m`. -/
def InPlace (m : Nat) (level : List Call) : Prop :=
  Fresh level ∧ ∀ c ∈ level, ∀ r ∈ c.reads ++ c.writes, r.2 < m

section Levels

variable {src : Buffer} {k fuel : Nat}

theorem forwardLevels_inPlace {m : Nat} (hm : 2 ^ k ≤ m) {level : List Call}
    (hlevel : level ∈ (forwardLevels fuel (2 ^ k) src).1) : InPlace m level := by
  induction k generalizing fuel src with
  | zero => simp [forwardLevels_one] at hlevel
  | succ k ih =>
    have hpow : 2 ^ (k + 1) = 2 * 2 ^ k := by ring
    cases fuel with
    | zero => simp [forwardLevels] at hlevel
    | succ fuel =>
      rw [forwardLevels_succ] at hlevel
      rcases List.mem_cons.mp hlevel with rfl | hlevel
      · refine ⟨forwardLevel_fresh other_ne, fun c hc r hr => ?_⟩
        obtain ⟨i, hi, rfl⟩ := mem_forwardLevel.mp hc
        simp only [Call.reads, Call.writes, List.cons_append, List.nil_append, List.mem_cons,
          List.not_mem_nil, or_false] at hr
        rcases hr with rfl | rfl | rfl | rfl <;> simp only <;> omega
      · exact ih (by omega) hlevel

theorem inverseLevels_inPlace {t : Nat} (ht : t ≤ k) (hsrc : src = bufferAfter k t ∨ t = 0) {level : List Call}
    (hlevel : level ∈ inverseLevels (2 ^ k) k fuel (2 * 2 ^ t) (t + 1) src) : InPlace (2 ^ k) level := by
  induction fuel generalizing t src with
  | zero => simp [inverseLevels] at hlevel
  | succ fuel ih =>
    rcases Nat.eq_or_lt_of_le ht with rfl | hlt
    · simp [inverseLevels_end] at hlevel
    · rw [inverseLevels_succ hlt] at hlevel
      rcases List.mem_cons.mp hlevel with rfl | hlevel
      · have hne : src ≠ bufferAfter k (t + 1) ∨ 2 ^ t = 1 := by
          rcases hsrc with rfl | rfl
          · exact .inl (bufferAfter_ne k t)
          · exact .inr rfl
        refine ⟨inverseLevel_fresh hne, fun c hc r hr => ?_⟩
        have hle : 2 * 2 ^ t ≤ 2 ^ k := by
          rw [← Nat.pow_succ']
          exact Nat.pow_le_pow_right (by decide) hlt
        obtain ⟨i, hi, rfl⟩ := mem_inverseLevel.mp hc
        simp only [Call.reads, Call.writes, List.cons_append, List.nil_append, List.mem_cons,
          List.not_mem_nil, or_false] at hr
        rcases hr with rfl | rfl | rfl | rfl <;> simp only <;> omega
      · exact ih hlt (.inl rfl) hlevel

end Levels

/-- The transform of `2 ^ k` rows, at any vector width: the forward one leaves the recursive
Haar transform in `g`, the inverse takes it back, and every level of both runs in place. -/
theorem haar_exact {α : Type} [CommRing α] (vc : α) (hvc : 2 * vc ^ 2 = 1) (lanes n k : Nat) (mem : Memory α) :
    (∀ i < 2 ^ k, ∀ x < n, haar lanes n vc (2 ^ k) false mem (.g, i) x =
      Haar.transform vc k (fun i => mem (.g, i) x) i) ∧
    (∀ i < 2 ^ k, ∀ x < n, haar lanes n vc (2 ^ k) true (haar lanes n vc (2 ^ k) false mem) (.g, i) x =
      mem (.g, i) x) ∧
    (∀ inverse i, 2 ^ k ≤ i → haar lanes n vc (2 ^ k) inverse mem (.g, i) = mem (.g, i)) ∧
    (∀ level ∈ (forwardLevels (2 ^ k) (2 ^ k) .g).1, InPlace (2 ^ k) level) ∧
    (∀ level ∈ inverseLevels (2 ^ k) (countLevels (2 ^ k) (2 ^ k) 0) (2 ^ k) 2 1 .g, InPlace (2 ^ k) level) := by
  have hk : k ≤ 2 ^ k := Nat.le_of_lt k.lt_two_pow_self
  refine ⟨forward_spec.1, fun i hi x hx => ?_, fun inverse i hi => ?_,
    fun level hlevel => forwardLevels_inPlace (Nat.le_refl _) hlevel, fun level hlevel => ?_⟩
  · rw [show haar lanes n vc (2 ^ k) true _ = backward lanes n vc (2 ^ k) _ from rfl,
      backward_spec.1 i hi x hx, ← Haar.inverse_transform hvc hi (f := fun i => mem (.g, i) x)]
    exact Haar.inverse_congr (fun j hj => forward_spec.1 j hj x hx) hi
  · cases inverse with
    | false => exact forward_spec.2 i hi
    | true => exact backward_spec.2 i hi
  · rw [countLevels_eq (by omega) (by omega)] at hlevel
    exact inverseLevels_inPlace (Nat.zero_le k) (.inr rfl) hlevel

/-- Rows in the integers modulo 7, where the scale is 2: three elements, in vectors of two. -/
def sevenRows : Memory (ZMod 7) := fun row x => row.2 * 5 + x

theorem haar_exact_seven :
    haar 2 3 2 (2 ^ 3) true (haar 2 3 2 (2 ^ 3) false sevenRows) (.g, 5) 2 = sevenRows (.g, 5) 2 :=
  (haar_exact (2 : ZMod 7) (by decide) 2 3 3 sevenRows).2.1 5 (by decide) 2 (by decide)

/-- **The transform is orthogonal.** In both directions and at any vector width it keeps the products
of the columns of two groups: their energies, and how far apart the groups are. -/
theorem haar_dot {α : Type} [CommRing α] (vc : α) (hvc : 2 * vc ^ 2 = 1) (lanes n k : Nat) (inverse : Bool)
    (mem mem' : Memory α) {x : Nat} (hx : x < n) :
    ∑ i ∈ Finset.range (2 ^ k), haar lanes n vc (2 ^ k) inverse mem (.g, i) x *
        haar lanes n vc (2 ^ k) inverse mem' (.g, i) x =
      ∑ i ∈ Finset.range (2 ^ k), mem (.g, i) x * mem' (.g, i) x := by
  cases inverse with
  | false =>
    refine (Finset.sum_congr rfl fun i hi => ?_).trans (Haar.transform_dot hvc)
    have hi := Finset.mem_range.mp hi
    exact congrArg₂ (· * ·) (forward_spec.1 i hi x hx) (forward_spec.1 i hi x hx)
  | true =>
    refine (Finset.sum_congr rfl fun i hi => ?_).trans (Haar.inverse_dot hvc)
    have hi := Finset.mem_range.mp hi
    exact congrArg₂ (· * ·) (backward_spec.1 i hi x hx) (backward_spec.1 i hi x hx)

theorem haar_dot_seven : ∑ i ∈ Finset.range (2 ^ 3), haar 2 3 2 (2 ^ 3) false sevenRows (.g, i) 2 *
    haar 2 3 2 (2 ^ 3) false sevenRows (.g, i) 2 =
      ∑ i ∈ Finset.range (2 ^ 3), sevenRows (.g, i) 2 * sevenRows (.g, i) 2 :=
  haar_dot (2 : ZMod 7) (by decide) 2 3 3 false sevenRows sevenRows (by decide)

end NssFactory.Bm4dHaar
