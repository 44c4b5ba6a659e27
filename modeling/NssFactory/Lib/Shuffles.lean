import Mathlib.Data.Nat.Bitwise
import Mathlib.Order.Lattice

/-!
# Reductions over the lanes of a warp

`exchange f v offset` gives every lane `f` of its value and of that of the lane whose number
differs in the bits of `offset`, as an xor shuffle does. `shuffled` is a row of them. Where `f`
is a meet, a lane ends with the meet over all lanes that the offsets lead to, `reach`.
-/

namespace NssFactory.Shuffles

variable {A : Type*}

def exchange (f : A → A → A) (v : Nat → A) (offset lane : Nat) : A := f (v lane) (v (lane ^^^ offset))

def shuffled (f : A → A → A) (offsets : List Nat) (v : Nat → A) : Nat → A := offsets.foldl (exchange f) v

/-- The differences between two lanes that some offsets make up. -/
def reach : List Nat → List Nat
  | [] => [0]
  | offset :: offsets => reach offsets ++ (reach offsets).map (· ^^^ offset)

/-- Over all lanes of a warp. -/
def warp : List Nat := [16, 8, 4, 2, 1]

theorem mem_reach_warp {k : Nat} (hk : k < 32) : k ∈ reach warp := by
  revert k
  decide

theorem reach_warp_lt {k : Nat} (hk : k ∈ reach warp) : k < 32 := by
  revert k
  decide

/-- A map that carries one operation to another carries their reductions. -/
theorem map_shuffled {B : Type*} {f : A → A → A} {f' : B → B → B} {g : A → B} (hg : ∀ a b, g (f a b) = f' (g a) (g b))
    (offsets : List Nat) (v : Nat → A) (lane : Nat) :
    g (shuffled f offsets v lane) = shuffled f' offsets (g ∘ v) lane := by
  induction offsets generalizing v with
  | nil => rfl
  | cons offset offsets ih =>
    have hstep : g ∘ exchange f v offset = exchange f' (g ∘ v) offset := funext fun _ => hg _ _
    exact (ih (exchange f v offset)).trans (by rw [hstep]; rfl)

variable [SemilatticeInf A] {v : Nat → A} {offsets : List Nat} {a : A} {lane : Nat}

theorem le_shuffled_iff : a ≤ shuffled (· ⊓ ·) offsets v lane ↔ ∀ x ∈ reach offsets, a ≤ v (lane ^^^ x) := by
  induction offsets generalizing v with
  | nil => simp [shuffled, reach]
  | cons offset offsets ih =>
    have hstep : shuffled (· ⊓ ·) (offset :: offsets) v = shuffled (· ⊓ ·) offsets (exchange (· ⊓ ·) v offset) := rfl
    simp only [hstep, ih, exchange, le_inf_iff, reach, List.mem_append, List.mem_map]
    constructor
    · rintro h x (hx | ⟨y, hy, rfl⟩)
      · exact (h x hx).1
      · have := (h y hy).2
        rwa [Nat.xor_assoc] at this
    · intro h x hx
      have := h (x ^^^ offset) (.inr ⟨x, hx, rfl⟩)
      exact ⟨h x (.inl hx), by rwa [Nat.xor_assoc]⟩

/-- The first lane ends with the meet over the warp. -/
theorem le_warp_iff : a ≤ shuffled (· ⊓ ·) warp v 0 ↔ ∀ k < 32, a ≤ v k := by
  rw [le_shuffled_iff]
  constructor
  · intro h k hk
    simpa using h k (mem_reach_warp hk)
  · intro h x hx
    simpa using h x (reach_warp_lt hx)

end NssFactory.Shuffles
