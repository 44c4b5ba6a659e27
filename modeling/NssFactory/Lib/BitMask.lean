import Mathlib.Algebra.Group.Nat.Defs
import Mathlib.Data.List.Basic
import NssFactory.Lib.Loops

/-!
# Bit masks

The loop `for (; bits; bits &= bits - 1)` over the bits of a word visits `countr_zero(bits)` in
each round: the places of the set bits, in order (`setBits_eq`).
-/

namespace NssFactory

variable {w : Nat} {bits : BitVec w}

/-- The rounds of the loop, `fuel` of them at most. -/
def setBits : Nat → BitVec w → List Nat
  | 0, _ => []
  | fuel + 1, bits =>
    if bits = 0#w then [] else bits.ctz.toNat :: setBits fuel (bits &&& (bits - 1#w))

/-- A word around its lowest set bit. -/
theorem toNat_eq_ctz (h : bits ≠ 0#w) :
    bits.toNat = 2 ^ (bits.ctz.toNat + 1) * (bits.toNat / 2 ^ (bits.ctz.toNat + 1)) +
      2 ^ bits.ctz.toNat := by
  have hlow : bits.toNat % 2 ^ (bits.ctz.toNat + 1) = 2 ^ bits.ctz.toNat := by
    apply Nat.eq_of_testBit_eq
    intro j
    rw [Nat.testBit_mod_two_pow, Nat.testBit_two_pow, BitVec.testBit_toNat]
    rcases Nat.lt_trichotomy j bits.ctz.toNat with hlt | rfl | hgt
    · rw [BitVec.getLsbD_false_of_lt_ctz hlt]
      simp [Nat.ne_of_gt hlt]
    · rw [BitVec.getLsbD_true_ctz_of_ne_zero h]
      simp
    · have hj : ¬j < bits.ctz.toNat + 1 := by omega
      simp [hj, Nat.ne_of_lt hgt]
  have hdiv := Nat.div_add_mod bits.toNat (2 ^ (bits.ctz.toNat + 1))
  rw [hlow] at hdiv
  exact hdiv.symm

/-- A round clears the lowest set bit, and no other. -/
theorem getLsbD_and_pred (h : bits ≠ 0#w) (j : Nat) :
    (bits &&& (bits - 1#w)).getLsbD j = (bits.getLsbD j && decide (j ≠ bits.ctz.toNat)) := by
  have hpos : 0 < bits.toNat := by
    have := BitVec.two_pow_ctz_le_toNat_of_ne_zero h
    have := Nat.two_pow_pos bits.ctz.toNat
    omega
  have hw : 0 < w := by
    rcases Nat.eq_zero_or_pos w with rfl | hw
    · exact absurd (Subsingleton.elim bits 0#0) h
    · exact hw
  have hone : (1#w).toNat = 1 := by
    rw [BitVec.toNat_ofNat]
    exact Nat.mod_eq_of_lt (Nat.one_lt_two_pow (by omega))
  have hsub : (bits - 1#w).toNat = bits.toNat - 1 := by
    rw [BitVec.toNat_sub_of_le (by rw [BitVec.le_def, hone]; exact hpos), hone]
  have hform := toNat_eq_ctz h
  have hpow := Nat.two_pow_pos bits.ctz.toNat
  have hpred : bits.toNat - 1 =
      2 ^ (bits.ctz.toNat + 1) * (bits.toNat / 2 ^ (bits.ctz.toNat + 1)) +
        (2 ^ bits.ctz.toNat - 1) := by omega
  have hsmall : 2 ^ bits.ctz.toNat < 2 ^ (bits.ctz.toNat + 1) :=
    Nat.pow_lt_pow_right (by decide) (Nat.lt_succ_self _)
  rw [BitVec.getLsbD_and, ← BitVec.testBit_toNat (bits - 1#w), hsub, hpred,
    Nat.testBit_two_pow_mul_add _ (by omega)]
  rcases Nat.lt_trichotomy j bits.ctz.toNat with hlt | rfl | hgt
  · rw [BitVec.getLsbD_false_of_lt_ctz hlt, Bool.false_and, Bool.false_and]
  · rw [if_pos (Nat.lt_succ_self _), Nat.testBit_lt_two_pow (Nat.sub_lt hpow Nat.one_pos)]
    simp
  · rw [if_neg (by omega), ← BitVec.testBit_toNat bits, hform,
      Nat.testBit_two_pow_mul_add _ hsmall, if_neg (by omega), ← hform]
    simp [Nat.ne_of_gt hgt]

/-- The loop visits the set bits in order. -/
theorem setBits_eq (bits : BitVec w) : setBits w bits = (List.range w).filter bits.getLsbD := by
  have hrounds : ∀ (fuel : Nat) (bits : BitVec w), fuel ≤ w →
      (∀ j, bits.getLsbD j = true → w - fuel ≤ j) →
      setBits fuel bits = (List.range w).filter bits.getLsbD := by
    intro fuel
    induction fuel with
    | zero =>
      intro bits _ hlow
      symm
      rw [setBits, List.filter_eq_nil_iff]
      intro j hj hbit
      have := hlow j hbit
      have := List.mem_range.mp hj
      omega
    | succ fuel ih =>
      intro bits hfuel hlow
      rw [setBits]
      by_cases hzero : bits = 0#w
      · rw [if_pos hzero, hzero]
        symm
        rw [List.filter_eq_nil_iff]
        simp
      · have hset := BitVec.getLsbD_true_ctz_of_ne_zero hzero
        have hfirst := hlow _ hset
        have hlt : bits.ctz.toNat < w := BitVec.lt_of_getLsbD hset
        rw [if_neg hzero, ih _ (by omega)]
        · apply Loops.eq_of_increasing
          · refine List.pairwise_cons.mpr ⟨fun j hj => ?_, List.pairwise_lt_range.filter _⟩
            rw [List.mem_filter, getLsbD_and_pred hzero, Bool.and_eq_true, decide_eq_true_eq] at hj
            by_contra hge
            have hless : j < bits.ctz.toNat := by omega
            rw [BitVec.getLsbD_false_of_lt_ctz hless] at hj
            exact absurd hj.2.1 (by simp)
          · exact List.pairwise_lt_range.filter _
          · intro j
            rw [List.mem_cons, List.mem_filter, List.mem_filter, getLsbD_and_pred hzero,
              List.mem_range, Bool.and_eq_true, decide_eq_true_eq]
            constructor
            · rintro (rfl | ⟨hj, hbit, -⟩)
              · exact ⟨hlt, hset⟩
              · exact ⟨hj, hbit⟩
            · rintro ⟨hj, hbit⟩
              by_cases heq : j = bits.ctz.toNat
              · exact .inl heq
              · exact .inr ⟨hj, hbit, heq⟩
        · intro j hbit
          rw [getLsbD_and_pred hzero, Bool.and_eq_true, decide_eq_true_eq] at hbit
          by_contra hlt'
          have hless : j ≤ bits.ctz.toNat := by omega
          rcases Nat.lt_or_ge j bits.ctz.toNat with hj | hj
          · rw [BitVec.getLsbD_false_of_lt_ctz hj] at hbit
            exact absurd hbit.1 (by simp)
          · exact hbit.2 (by omega)
  apply hrounds w bits (Nat.le_refl w)
  intro j _
  omega

end NssFactory
