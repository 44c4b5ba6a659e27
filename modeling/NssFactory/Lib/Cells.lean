import Mathlib.Data.Option.Basic
import Mathlib.Logic.Function.Basic
import Mathlib.Tactic.Ring
import NssFactory.Lib.Lanes

/-!
# Computations that fill a memory

A memory cell holds a value or has not been computed yet. A store may leave the memory or store
what was never computed; then there is no result. `Fills value S f` says that `f` has a result,
that it leaves the right values in the cells of `S`, and that it spoils no cell that was right:
loops of stores fill the union of what their rounds fill, however these overlap.
-/

namespace NssFactory.Cells

open Loops

variable {ι : Type} {α : Type} [DecidableEq ι]

/-- A memory: none where nothing has been computed. -/
abbrev Cells (ι α : Type) := ι → Option α

/-- Nothing has been computed. -/
def fresh : Cells ι α := fun _ => none

/-- `m[c] = v`; `ok`: the cells there are. -/
def set (ok : ι → Bool) (c : ι) (v : Option α) (m : Cells ι α) : Option (Cells ι α) :=
  if ok c ∧ v.isSome then some (Function.update m c v) else none

/-- A loop whose rounds all have results. -/
theorem foldlM_eq_some {σ κ : Type} {l : List κ} {f : σ → κ → Option σ} {g : σ → κ → σ} {s : σ}
    (h : ∀ s, ∀ a ∈ l, f s a = some (g s a)) : l.foldlM f s = some (l.foldl g s) := by
  induction l generalizing s with
  | nil => rfl
  | cons a l ih =>
    rw [List.foldlM_cons, h s a List.mem_cons_self, List.foldl_cons]
    exact ih fun s b hb => h s b (List.mem_cons_of_mem _ hb)

/-- The vectors of a loop are in its range. -/
theorem vector_inside {n lo hi : Int} (hn : 0 < n) {k : Nat} (hk : k < rounds n lo hi) :
    lo ≤ lo + k * n ∧ lo + k * n + n ≤ vectorEnd n lo hi := by
  have hend : vectorEnd n lo hi = lo + rounds n lo hi * n := rfl
  have hle : ((k + 1 : Nat) : Int) * n ≤ rounds n lo hi * n :=
    Int.mul_le_mul_of_nonneg_right (by exact_mod_cast hk) (by omega)
  have hsucc : ((k + 1 : Nat) : Int) * n = k * n + n := by push_cast; ring
  have hpos : 0 ≤ (k : Int) * n := Int.mul_nonneg (by omega) (by omega)
  omega

/-- The vector of a column. -/
theorem exists_vector {n lo hi i : Int} (hn : 0 < n) (hlo : lo ≤ i) (hhi : i < vectorEnd n lo hi) :
    ∃ k < rounds n lo hi, lo + (k : Nat) * n ≤ i ∧ i < lo + k * n + n := by
  have hend : vectorEnd n lo hi = lo + rounds n lo hi * n := rfl
  have hdiv : (i - lo) / n * n + (i - lo) % n = i - lo := Int.ediv_mul_add_emod (i - lo) n
  have hmod : 0 ≤ (i - lo) % n := Int.emod_nonneg _ (by omega)
  have hmod' : (i - lo) % n < n := Int.emod_lt_of_pos _ hn
  have hquot : 0 ≤ (i - lo) / n := Int.ediv_nonneg (by omega) (by omega)
  have hlt : (i - lo) / n < rounds n lo hi := by
    by_contra hge
    have hle : (rounds n lo hi : Int) * n ≤ (i - lo) / n * n :=
      Int.mul_le_mul_of_nonneg_right (by omega) (by omega)
    omega
  have hcast : (((i - lo) / n).toNat : Int) = (i - lo) / n := Int.toNat_of_nonneg hquot
  exact ⟨((i - lo) / n).toNat, by omega, by rw [hcast]; omega, by rw [hcast]; omega⟩

/-- The store of a vector of `n` lanes. -/
def vec (ok : ι → Bool) (cell : Int → ι) (n : Int) (v : Int → Option α) (x : Int) (m : Cells ι α) :
    Option (Cells ι α) :=
  (Int.range x (x + n)).foldlM (fun m i => set ok (cell i) (v i) m) m

/-- `for (; x + n <= hi; x += n)`, with a vector stored each time. -/
def vectors (ok : ι → Bool) (cell : Int → ι) (n : Int) (v : Int → Option α) (lo hi : Int) (m : Cells ι α) :
    Option (Cells ι α) :=
  (List.range (rounds n lo hi)).foldlM (fun m (k : Nat) => vec ok cell n v (lo + k * n) m) m

/-- `for (; x < hi; ++x)`, with a value stored each time. -/
def scalars (ok : ι → Bool) (cell : Int → ι) (v : Int → Option α) (lo hi : Int) (m : Cells ι α) :
    Option (Cells ι α) :=
  (Int.range lo hi).foldlM (fun m i => set ok (cell i) (v i) m) m

/-- The computation fills `S`. -/
def Fills (value : ι → Option α) (S : ι → Prop) (f : Cells ι α → Option (Cells ι α)) : Prop :=
  ∀ m, ∃ m', f m = some m' ∧ (∀ c, S c → m' c = value c) ∧ ∀ c, m c = value c → m' c = value c

namespace Fills

variable {value : ι → Option α} {S T : ι → Prop} {f g : Cells ι α → Option (Cells ι α)}

omit [DecidableEq ι] in
theorem mono (h : Fills value S f) (hsub : ∀ c, T c → S c) : Fills value T f := by
  intro m
  obtain ⟨m', hrun, hfill, hkeep⟩ := h m
  exact ⟨m', hrun, fun c hc => hfill c (hsub c hc), hkeep⟩

omit [DecidableEq ι] in
theorem nothing (hempty : ∀ c, ¬S c) : Fills value S some := fun m =>
  ⟨m, rfl, fun c hc => absurd hc (hempty c), fun _ h => h⟩

omit [DecidableEq ι] in
theorem comp (hf : Fills value S f) (hg : Fills value T g) : Fills value (fun c => S c ∨ T c) fun m => f m >>= g := by
  intro m
  obtain ⟨m₁, hrun₁, hfill₁, hkeep₁⟩ := hf m
  obtain ⟨m₂, hrun₂, hfill₂, hkeep₂⟩ := hg m₁
  refine ⟨m₂, ?_, ?_, fun c hc => hkeep₂ c (hkeep₁ c hc)⟩
  · dsimp only
    rw [hrun₁]
    exact hrun₂
  · intro c hc
    rcases hc with hc | hc
    · exact hkeep₂ c (hfill₁ c hc)
    · exact hfill₂ c hc

omit [DecidableEq ι] in
/-- A loop fills what its rounds fill. -/
theorem each {κ : Type} {l : List κ} {round : Cells ι α → κ → Option (Cells ι α)} {S : κ → ι → Prop}
    (h : ∀ a ∈ l, Fills value (S a) fun m => round m a) :
    Fills value (fun c => ∃ a ∈ l, S a c) fun m => l.foldlM round m := by
  induction l with
  | nil => exact fun m => ⟨m, rfl, by simp, fun _ h => h⟩
  | cons a l ih =>
    have hfirst := h a List.mem_cons_self
    have hrest := ih fun b hb => h b (List.mem_cons_of_mem _ hb)
    refine (hfirst.comp hrest).mono ?_
    rintro c ⟨b, hb, hc⟩
    rcases List.mem_cons.mp hb with rfl | hb
    · exact .inl hc
    · exact .inr ⟨b, hb, hc⟩

variable {ok : ι → Bool} {cell : Int → ι} {v : Int → Option α} {x n lo hi : Int}

theorem set {c : ι} {v : Option α} (hok : ok c = true) (hv : v = value c) (hsome : v.isSome) :
    Fills value (· = c) (Cells.set ok c v) := by
  intro m
  refine ⟨Function.update m c v, if_pos ⟨hok, hsome⟩, ?_, ?_⟩
  · rintro _ rfl
    rw [Function.update_self, hv]
  · intro d hd
    by_cases heq : d = c
    · rw [heq, Function.update_self, hv]
    · rw [Function.update_of_ne heq, hd]

/-- The cell of column `i` can be stored to, with the value it is to have. -/
structure Good (ok : ι → Bool) (cell : Int → ι) (value : ι → Option α) (v : Int → Option α) (i : Int) : Prop where
  inside : ok (cell i) = true
  right : v i = value (cell i)
  computed : (v i).isSome

theorem scalars (h : ∀ i, lo ≤ i → i < hi → Good ok cell value v i) :
    Fills value (fun c => ∃ i, lo ≤ i ∧ i < hi ∧ c = cell i) (Cells.scalars ok cell v lo hi) := by
  refine (each (S := fun i c => c = cell i) fun i hi => ?_).mono ?_
  · obtain ⟨hlo, hhi⟩ := Int.mem_range_iff.mp hi
    obtain ⟨hok, hv, hsome⟩ := h i hlo hhi
    exact set hok hv hsome
  · rintro c ⟨i, hlo, hhi, hc⟩
    exact ⟨i, Int.mem_range_iff.mpr ⟨hlo, hhi⟩, hc⟩

theorem vec (h : ∀ i, x ≤ i → i < x + n → Good ok cell value v i) :
    Fills value (fun c => ∃ i, x ≤ i ∧ i < x + n ∧ c = cell i) (Cells.vec ok cell n v x) := scalars h

theorem vectors (hn : 0 < n) (h : ∀ i, lo ≤ i → i < vectorEnd n lo hi → Good ok cell value v i) :
    Fills value (fun c => ∃ i, lo ≤ i ∧ i < vectorEnd n lo hi ∧ c = cell i) (Cells.vectors ok cell n v lo hi) := by
  refine (each (S := fun (k : Nat) c => ∃ i, lo + k * n ≤ i ∧ i < lo + k * n + n ∧ c = cell i) fun k hk => ?_).mono ?_
  · obtain ⟨hstart, hstop⟩ := vector_inside hn (List.mem_range.mp hk)
    exact vec fun i hlo hhi => h i (by omega) (by omega)
  · rintro c ⟨i, hlo, hhi, hc⟩
    obtain ⟨k, hk, hstart, hstop⟩ := exists_vector hn hlo hhi
    exact ⟨k, List.mem_range.mpr hk, i, hstart, hstop, hc⟩

end Fills

end NssFactory.Cells
