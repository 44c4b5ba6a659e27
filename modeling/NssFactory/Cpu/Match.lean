import Mathlib.Data.Prod.Lex
import NssFactory.Lib.LeastK

/-!
# The order of block matches

`match_less` of `cpu/bm/matcher.hpp`: finite distances before others, then the distance, the
reference block, and the place of the candidate. `Match.rank` puts that order into one linear
order, so that `match_less` is a strict weak order whatever the distances are, and total on
candidates of different places.

A distance is the bits of a binary32 float. Floats are compared only where both are finite;
there their order is that of `F32.value`, sign and magnitude.
-/

namespace NssFactory.Cpu

/-- A `float`, as its bits. -/
abbrev F32 := BitVec 32

namespace F32

/-- Neither an infinity nor a NaN. -/
def isFiniteBits (v : F32) : Bool := v &&& 0x7f800000#32 != 0x7f800000#32

/-- The place of a finite float among the finite floats; both zeros are 0. -/
def value (v : F32) : Int :=
  if v.msb then -((v &&& 0x7fffffff#32).toNat : Int) else (v &&& 0x7fffffff#32).toNat

/-- The bits of `0.f`. -/
def zero : F32 := 0#32

def isNaN (v : F32) : Bool := !v.isFiniteBits && v &&& 0x007fffff#32 != 0#32

/-- `a <= b` of floats: false with a NaN. -/
def le (a b : F32) : Bool := !a.isNaN && !b.isNaN && decide (a.value ≤ b.value)

/-- `a < b` of floats: false with a NaN. -/
def lt (a b : F32) : Bool := !a.isNaN && !b.isNaN && decide (a.value < b.value)

variable {a b : F32}

theorem le_iff (ha : a.isFiniteBits = true) (hb : b.isFiniteBits = true) :
    a.le b = true ↔ a.value ≤ b.value := by
  simp [le, isNaN, ha, hb]

theorem lt_iff (ha : a.isFiniteBits = true) (hb : b.isFiniteBits = true) :
    a.lt b = true ↔ a.value < b.value := by
  simp [lt, isNaN, ha, hb]

end F32

structure Match where
  x : Int
  y : Int
  t : Int
  dist : F32
  ordinal : Nat
  deriving DecidableEq, Repr

def matchTieLess (a b : Match) : Bool :=
  let aSelf := a.ordinal == 0
  let bSelf := b.ordinal == 0
  if aSelf ≠ bSelf then aSelf
  else if a.t ≠ b.t then decide (a.t < b.t)
  else if a.y ≠ b.y then decide (a.y < b.y)
  else if a.x ≠ b.x then decide (a.x < b.x)
  else decide (a.ordinal < b.ordinal)

def matchLess (a b : Match) : Bool :=
  let aFinite := a.dist.isFiniteBits
  let bFinite := b.dist.isFiniteBits
  if aFinite ≠ bFinite then aFinite
  else if aFinite ∧ a.dist.value ≠ b.dist.value then decide (a.dist.value < b.dist.value)
  else matchTieLess a b

/-- What `std::sort` with `match_less` makes of matches of different places. -/
def sortMatches (l : List Match) : List Match :=
  l.insertionSort fun a b => matchLess b a = false

namespace Match

/-- The place of a candidate: no two of a search have the same. -/
def place (m : Match) : Int × Int × Int × Nat := (m.t, m.y, m.x, m.ordinal)

/-- The linear order behind `match_less`. -/
abbrev Rank := Bool ×ₗ Int ×ₗ Bool ×ₗ Int ×ₗ Int ×ₗ Int ×ₗ Nat

def rank (m : Match) : Rank :=
  toLex (!m.dist.isFiniteBits, toLex (if m.dist.isFiniteBits then m.dist.value else 0,
    toLex (m.ordinal != 0, toLex (m.t, toLex (m.y, toLex (m.x, m.ordinal))))))

variable {a b c : Match}

/-- One key of a lexicographic comparison, as the source writes it. -/
theorem lex_lt_iff {α β : Type*} [LinearOrder α] [Preorder β] {a b : α} {p q : β} :
    toLex (a, p) < toLex (b, q) ↔ if a ≠ b then a < b else p < q := by
  rw [Prod.Lex.toLex_lt_toLex]
  by_cases h : a = b
  · simp [h]
  · simp [h]

theorem matchTieLess_iff : matchTieLess a b = true ↔
    toLex (a.ordinal != 0, toLex (a.t, toLex (a.y, toLex (a.x, a.ordinal)))) <
      toLex (b.ordinal != 0, toLex (b.t, toLex (b.y, toLex (b.x, b.ordinal)))) := by
  simp only [lex_lt_iff, matchTieLess, bne]
  by_cases hself : (a.ordinal == 0) = (b.ordinal == 0)
  · simp only [hself, ne_eq, not_true_eq_false, if_false]
    split_ifs <;> simp only [decide_eq_true_eq]
  · -- the reference block comes first
    cases ha : a.ordinal == 0 <;> cases hb : b.ordinal == 0 <;> simp_all

theorem matchLess_iff : matchLess a b = true ↔ a.rank < b.rank := by
  rw [rank, rank, lex_lt_iff, lex_lt_iff, ← matchTieLess_iff, matchLess]
  cases ha : a.dist.isFiniteBits <;> cases hb : b.dist.isFiniteBits
  · simp
  · simp
  · simp
  · by_cases heq : a.dist.value = b.dist.value <;> simp [heq]

theorem place_of_rank (h : a.rank = b.rank) : a.place = b.place := by
  simp only [rank, EmbeddingLike.apply_eq_iff_eq, Prod.mk.injEq] at h
  obtain ⟨-, -, -, ht, hy, hx, hord⟩ := h
  simp [place, ht, hy, hx, hord]

theorem matchLess_false_iff : matchLess a b = false ↔ b.rank ≤ a.rank := by
  rw [← Bool.not_eq_true, matchLess_iff, not_lt]

/-- The nearer of two finite distances comes first. -/
theorem matchLess_of_value_lt (ha : a.dist.isFiniteBits = true) (hb : b.dist.isFiniteBits = true)
    (h : a.dist.value < b.dist.value) : matchLess a b = true := by
  simp [matchLess, ha, hb, h, ne_of_lt h]

theorem rank_ne (h : a.place ≠ b.place) : a.rank ≠ b.rank := fun heq => h (place_of_rank heq)

/-- Candidates of different places have different ranks. -/
theorem nodup_rank {l : List Match} (h : (l.map place).Nodup) : (l.map rank).Nodup := by
  rw [List.Nodup, List.pairwise_map] at h ⊢
  exact h.imp rank_ne

theorem sortMatches_eq (l : List Match) : sortMatches l = sortBy rank l := by
  unfold sortMatches sortBy
  simp only [matchLess_false_iff]

end Match

end NssFactory.Cpu
