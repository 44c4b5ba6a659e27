import Mathlib.Algebra.Order.Ring.Nat
import Mathlib.Data.Nat.Basic
import Mathlib.Data.Option.Basic

/-!
# A work area with several uses

A program lays matrices out in one buffer and uses some of it for one after another. Here every
element remembers what it was last written for. A load for a use (`load`) has a value only where all
its elements lie in the buffer and were last written for that use, a store (`store`) only where it
lies in the buffer: a run that has a value reads nothing that another use has overwritten and stays
inside the buffer.

`Holds` says that a matrix is there for a use. A store makes it hold (`store_eq`), keeps what holds
apart from it (`Holds.apart`), and what holds can be loaded (`Holds.load_eq`).
-/

namespace NssFactory.Areas

variable {U F : Type}

/-- A matrix by columns: `rows` by `cols`, column `j` at `base + j * ld`. -/
structure Area where
  base : Nat
  ld : Nat
  rows : Nat
  cols : Nat

namespace Area

variable (a : Area)

def address (i j : Nat) : Nat := a.base + j * a.ld + i

/-- The end of the area with its padding. -/
def stop : Nat := a.base + a.ld * a.cols

/-- Whether element `x` of the buffer belongs to the matrix. -/
def Owns (x : Nat) : Prop := a.base ≤ x ∧ (x - a.base) / a.ld < a.cols ∧ (x - a.base) % a.ld < a.rows

instance (x : Nat) : Decidable (a.Owns x) := inferInstanceAs (Decidable (_ ∧ _ ∧ _))

variable {a} {i j x : Nat}

theorem address_lt (hld : a.rows ≤ a.ld) (hi : i < a.rows) (hj : j < a.cols) : a.address i j < a.stop := by
  have hle : (j + 1) * a.ld ≤ a.cols * a.ld := Nat.mul_le_mul_right a.ld hj
  rw [Nat.succ_mul] at hle
  rw [address, stop, Nat.mul_comm a.ld]
  omega

theorem base_le_address : a.base ≤ a.address i j := by
  rw [address]
  omega

theorem owns_address (hld : a.rows ≤ a.ld) (hi : i < a.rows) (hj : j < a.cols) :
    a.Owns (a.address i j) ∧ (a.address i j - a.base) / a.ld = j ∧ (a.address i j - a.base) % a.ld = i := by
  have hoff : a.address i j - a.base = i + j * a.ld := by
    rw [address]
    omega
  have hdiv : (i + j * a.ld) / a.ld = j := by
    rw [Nat.add_mul_div_right _ _ (by omega), Nat.div_eq_of_lt (by omega), Nat.zero_add]
  have hmod : (i + j * a.ld) % a.ld = i := by
    rw [Nat.add_mul_mod_self_right, Nat.mod_eq_of_lt (by omega)]
  rw [Owns, hoff, hdiv, hmod]
  exact ⟨⟨base_le_address, hj, hi⟩, rfl, rfl⟩

theorem Owns.lt_stop (hld : a.rows ≤ a.ld) (h : a.Owns x) : x < a.stop := by
  obtain ⟨hbase, hj, hi⟩ := h
  have haddress : a.address ((x - a.base) % a.ld) ((x - a.base) / a.ld) = x := by
    have hsum := Nat.div_add_mod (x - a.base) a.ld
    rw [Nat.mul_comm] at hsum
    rw [address]
    omega
  rw [← haddress]
  exact address_lt hld hi hj

end Area

/-- The buffer: what each element was written for, and its value. -/
abbrev Memory (U F : Type) := Nat → Option (U × F)

/-- A matrix of that size, `z` outside it. -/
def block (z : F) (rows cols : Nat) (f : Nat → Nat → F) : Nat → Nat → F :=
  fun i j => if i < rows ∧ j < cols then f i j else z

theorem block_in {z : F} {rows cols i j : Nat} {f : Nat → Nat → F} (hi : i < rows) (hj : j < cols) :
    block z rows cols f i j = f i j := if_pos ⟨hi, hj⟩

theorem block_congr {z : F} {rows cols : Nat} {f g : Nat → Nat → F} (h : ∀ i < rows, ∀ j < cols, f i j = g i j) :
    block z rows cols f = block z rows cols g := by
  funext i j
  unfold block
  split
  · rename_i hin
    exact h i hin.1 j hin.2
  · rfl

def load [DecidableEq U] (size : Nat) (z : F) (m : Memory U F) (u : U) (a : Area) : Option (Nat → Nat → F) :=
  if ∀ j < a.cols, ∀ i < a.rows, a.address i j < size ∧ (m (a.address i j)).map Prod.fst = some u then
    some (block z a.rows a.cols fun i j => ((m (a.address i j)).map Prod.snd).getD z)
  else none

def store (size : Nat) (m : Memory U F) (u : U) (a : Area) (f : Nat → Nat → F) : Option (Memory U F) :=
  if ∀ j < a.cols, ∀ i < a.rows, a.address i j < size then
    some fun x => if a.Owns x then some (u, f ((x - a.base) % a.ld) ((x - a.base) / a.ld)) else m x
  else none

/-- The matrix `f` is there for the use `u`. -/
def Holds (m : Memory U F) (u : U) (a : Area) (f : Nat → Nat → F) : Prop :=
  ∀ i < a.rows, ∀ j < a.cols, m (a.address i j) = some (u, f i j)

variable {size : Nat} {z : F} {m m' : Memory U F} {u v : U} {a b : Area} {f g : Nat → Nat → F}

theorem Holds.congr (h : Holds m u a f) (hfg : ∀ i < a.rows, ∀ j < a.cols, f i j = g i j) : Holds m u a g := by
  intro i hi j hj
  rw [h i hi j hj, hfg i hi j hj]

theorem Holds.load_eq [DecidableEq U] (h : Holds m u a f) (hld : a.rows ≤ a.ld) (hsize : a.stop ≤ size) :
    load size z m u a = some (block z a.rows a.cols f) := by
  have hthere : ∀ j < a.cols, ∀ i < a.rows, a.address i j < size ∧ (m (a.address i j)).map Prod.fst = some u := by
    intro j hj i hi
    have := Area.address_lt hld hi hj
    rw [h i hi j hj]
    exact ⟨by omega, rfl⟩
  rw [load, if_pos hthere]
  congr 1
  refine block_congr fun i hi j hj => ?_
  rw [h i hi j hj]
  rfl

/-- What a store changes and what it leaves. -/
structure Stored (m m' : Memory U F) (u : U) (a : Area) (f : Nat → Nat → F) : Prop where
  holds : Holds m' u a f
  off : ∀ x, x < a.base ∨ a.stop ≤ x → m' x = m x

theorem store_eq (m : Memory U F) (u : U) (f : Nat → Nat → F) (hld : a.rows ≤ a.ld) (hsize : a.stop ≤ size) :
    ∃ m', store size m u a f = some m' ∧ Stored m m' u a f := by
  have hin : ∀ j < a.cols, ∀ i < a.rows, a.address i j < size := by
    intro j hj i hi
    have := Area.address_lt hld hi hj
    omega
  refine ⟨_, if_pos hin, fun i hi j hj => ?_, fun x hx => ?_⟩
  · obtain ⟨howns, hdiv, hmod⟩ := Area.owns_address hld hi hj
    rw [if_pos howns, hdiv, hmod]
  · refine if_neg fun howns => ?_
    have := howns.lt_stop hld
    have := howns.1
    omega

/-- What is apart from a change stays. -/
theorem Holds.apart (h : Holds m v b g) (hld : b.rows ≤ b.ld) {lo hi : Nat}
    (hoff : ∀ x, x < lo ∨ hi ≤ x → m' x = m x) (hapart : b.stop ≤ lo ∨ hi ≤ b.base) : Holds m' v b g := by
  intro i hi' j hj
  have := Area.address_lt hld hi' hj
  have := Area.base_le_address (a := b) (i := i) (j := j)
  rw [hoff _ (by omega)]
  exact h i hi' j hj

end NssFactory.Areas
