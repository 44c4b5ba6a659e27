import Mathlib

/-!
# The numbers behind literals

A literal over a field needs that its number is two or more, one in `Fin n` that `n` is not zero.
A module that takes these as its local instances has the same proof in each of its definitions.
-/

namespace NssFactory.Numerals

theorem two : Nat.AtLeastTwo 2 := ⟨Nat.le_refl 2⟩

theorem three : Nat.AtLeastTwo 3 := ⟨by decide⟩

theorem single : NeZero 1 := ⟨by decide⟩

theorem pair : NeZero 2 := ⟨by decide⟩

theorem four : NeZero 4 := ⟨by decide⟩

end NssFactory.Numerals
