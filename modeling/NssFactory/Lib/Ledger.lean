import Mathlib.Algebra.BigOperators.Group.List.Basic
import Mathlib.Algebra.GroupWithZero.Nat
import Mathlib.Data.List.Basic

/-!
# Sums of the entries that count

`total w p l` is the weight of the entries of `l` that satisfy `p`. A counter that follows such
a sum is updated by `total_cons`, `total_erase` and, when it is the predicate that changes, by
`total_congr` and `total_split`.
-/

namespace NssFactory.Ledger

variable {α : Type*} {w : α → Nat} {l : List α} {a : α} {p q : α → Prop} [DecidablePred p]
  [DecidablePred q]

def total (w : α → Nat) (p : α → Prop) [DecidablePred p] (l : List α) : Nat :=
  (l.map fun a => if p a then w a else 0).sum

@[simp] theorem total_cons : total w p (a :: l) = (if p a then w a else 0) + total w p l := rfl

theorem total_perm {l' : List α} (h : l.Perm l') : total w p l = total w p l' :=
  (h.map _).sum_eq

theorem total_erase [BEq α] [LawfulBEq α] (h : a ∈ l) :
    total w p l = (if p a then w a else 0) + total w p (l.erase a) := by
  rw [total_perm (List.perm_cons_erase h), total_cons]

theorem total_congr (h : ∀ a ∈ l, p a ↔ q a) : total w p l = total w q l := by
  induction l with
  | nil => rfl
  | cons a l ih =>
    rw [total_cons, total_cons, ih fun b hb => h b (List.mem_cons_of_mem _ hb)]
    simp only [h a List.mem_cons_self]

theorem total_split : total w p l =
    total w (fun a => p a ∧ q a) l + total w (fun a => p a ∧ ¬q a) l := by
  induction l with
  | nil => rfl
  | cons a l ih =>
    rw [total_cons, total_cons, total_cons, ih]
    by_cases hp : p a <;> by_cases hq : q a <;> simp [hp, hq] <;> omega

theorem total_mono (h : ∀ a ∈ l, p a → q a) : total w p l ≤ total w q l := by
  induction l with
  | nil => exact Nat.le_refl 0
  | cons a l ih =>
    have hrest := ih fun b hb => h b (List.mem_cons_of_mem _ hb)
    have ha := h a List.mem_cons_self
    rw [total_cons, total_cons]
    by_cases hp : p a
    · simp only [hp, ha hp, if_true]
      omega
    · simp only [hp, if_false]
      omega

theorem total_eq_zero (h : ∀ a ∈ l, ¬p a) : total w p l = 0 := by
  induction l with
  | nil => rfl
  | cons a l ih =>
    rw [total_cons, if_neg (h a List.mem_cons_self), ih fun b hb => h b (List.mem_cons_of_mem _ hb)]

theorem le_total (h : a ∈ l) (hp : p a) : w a ≤ total w p l := by
  induction l with
  | nil => cases h
  | cons b l ih =>
    rw [total_cons]
    rcases List.mem_cons.mp h with rfl | h
    · rw [if_pos hp]
      exact Nat.le_add_right _ _
    · exact Nat.le_trans (ih h) (Nat.le_add_left _ _)

end NssFactory.Ledger
