import Mathlib.Data.List.FinRange
import Mathlib.Data.List.Perm.Basic
import Mathlib.Tactic.Ring
import NssFactory.Lib.Lines

/-!
# Tiled loops over memory that may be absent

A kernel takes an axis in tiles, `for (i = lo; i + s <= hi; i += s)`: `starts` are the values of
its counter and `stop` the one it ends with. The tiles are a run of the axis (`starts_flatMap`),
and a later loop goes on where they stop (`range_tiles`).

A load outside the memory has no value, and a loop of such loads has one only if all have:
`gather_eq`, `each_eq` and `foldlM_eq` turn it into the plain loop.

`sweep` replaces a run of elements in vectors, each from its old value: `sweep_apply`.
-/

namespace NssFactory.Tiles

variable {β γ σ : Type*}

/-! ## Tiles of an axis -/

/-- The counter of `for (i = lo; i + s <= hi; i += s)`. -/
def starts (s lo hi : Nat) : List Nat := (List.range ((hi - lo) / s)).map fun x => lo + x * s

/-- Where it ends. -/
def stop (s lo hi : Nat) : Nat := lo + (hi - lo) / s * s

section Axis

variable {s lo hi i : Nat}

theorem stop_le (h : lo ≤ hi) : stop s lo hi ≤ hi := by
  have := Nat.div_mul_le_self (hi - lo) s
  unfold stop
  omega

theorem le_stop : lo ≤ stop s lo hi := Nat.le_add_right _ _

/-- A loop that goes on with the same tiles ends at the same place. -/
theorem stop_zero_mul {c : Nat} (hs : 0 < s) (h : c * s ≤ hi) :
    stop s (c * s) hi = hi / s * s := by
  obtain ⟨d, rfl⟩ : ∃ d, hi = c * s + d := ⟨hi - c * s, by omega⟩
  rw [stop, Nat.add_sub_cancel_left, Nat.add_comm (c * s) d, Nat.add_mul_div_right _ _ hs, Nat.add_mul,
    Nat.add_comm]

theorem mem_starts (hi' : i ∈ starts s lo hi) : lo ≤ i ∧ i + s ≤ hi ∧ ∃ x, i = lo + x * s := by
  obtain ⟨x, hx, rfl⟩ := List.mem_map.mp hi'
  rw [List.mem_range] at hx
  have hle : (x + 1) * s ≤ (hi - lo) / s * s := Nat.mul_le_mul_right s hx
  have hdiv := Nat.div_mul_le_self (hi - lo) s
  have hself := Nat.div_le_self (hi - lo) s
  have hsucc : (x + 1) * s = x * s + s := by ring
  exact ⟨by omega, by omega, x, rfl⟩

/-- `a` tiles of `b`, from `lo` on. -/
theorem flatMap_range' (a b lo : Nat) :
    ((List.range a).flatMap fun x => List.range' (lo + x * b) b) = List.range' lo (a * b) := by
  induction a with
  | zero => simp
  | succ a ih =>
    rw [List.range_succ, List.flatMap_append, ih, Nat.add_mul, Nat.one_mul]
    simp

/-- The tiles meet a run of the axis. -/
theorem starts_flatMap :
    ((starts s lo hi).flatMap fun i => List.range' i s) = List.range' lo (stop s lo hi - lo) := by
  rw [starts, List.flatMap_map, flatMap_range', stop, Nat.add_sub_cancel_left]

theorem range_tiles {mid : Nat} (h : lo ≤ mid) (h' : mid ≤ hi) :
    List.range' lo (mid - lo) ++ List.range' mid (hi - mid) = List.range' lo (hi - lo) := by
  obtain ⟨d, rfl⟩ : ∃ d, mid = lo + d := ⟨mid - lo, by omega⟩
  rw [Nat.add_sub_cancel_left, List.range'_append_1, show d + (hi - (lo + d)) = hi - lo by omega]

theorem range'_eq_finRange (lo n : Nat) :
    List.range' lo n = (List.finRange n).map fun q : Fin n => lo + q := by
  rw [List.range'_eq_map_range, ← List.map_coe_finRange_eq_range, List.map_map]
  rfl

/-- Vectors of `b` lanes one after the other are a run. -/
theorem finRange_flatMap {a b : Nat} (f : Nat → γ) :
    ((List.finRange a).flatMap fun r : Fin a =>
      (List.finRange b).map fun l : Fin b => f (lo + r * b + l)) =
      (List.range' lo (a * b)).map f := by
  have hlanes : ∀ r : Nat, ((List.finRange b).map fun l : Fin b => f (lo + r * b + l)) =
      (List.range' (lo + r * b) b).map f := by
    intro r
    rw [range'_eq_finRange, List.map_map]
    rfl
  rw [← flatMap_range', List.map_flatMap, ← List.map_coe_finRange_eq_range, List.flatMap_map]
  exact List.flatMap_congr fun r _ => hlanes r

end Axis

/-- Rows outside, or columns outside: the same cells. -/
theorem flatMap_comm {α : Type*} (xs : List α) (ys : List β) (f : α → β → List γ) :
    (xs.flatMap fun x => ys.flatMap fun y => f x y).Perm
      (ys.flatMap fun y => xs.flatMap fun x => f x y) := by
  induction xs with
  | nil => simp
  | cons x xs ih =>
    simp only [List.flatMap_cons]
    exact (ih.append_left _).trans (List.flatMap_append_perm ys (f x) _)

/-! ## Loops of loads -/

/-- All of them, if each has a value. -/
def gather {n : Nat} (f : Fin n → Option β) : Option (Fin n → β) :=
  if h : ∀ i, (f i).isSome then some fun i => (f i).get (h i) else none

/-- What a loop stores, if none of its rounds faults. -/
def each (l : List β) (f : β → Option (List γ)) : Option (List γ) :=
  (l.mapM f).map List.flatten

theorem gather_eq {n : Nat} {f : Fin n → Option β} {g : Fin n → β} (h : ∀ i, f i = some (g i)) :
    gather f = some g := by
  obtain rfl : f = fun i => some (g i) := funext h
  simp [gather]

theorem each_eq {l : List β} {f : β → Option (List γ)} {g : β → List γ}
    (h : ∀ x ∈ l, f x = some (g x)) : each l f = some (l.flatMap g) := by
  unfold each
  induction l with
  | nil => rfl
  | cons x l ih =>
    have hrest := ih fun y hy => h y (List.mem_cons_of_mem _ hy)
    obtain ⟨rest, hmap, hflat⟩ := Option.map_eq_some_iff.mp hrest
    simp [List.mapM_cons, h x List.mem_cons_self, hmap, hflat]

theorem foldlM_eq {l : List β} {f : σ → β → Option σ} {g : σ → β → σ}
    (h : ∀ x ∈ l, ∀ s, f s x = some (g s x)) (s : σ) : l.foldlM f s = some (l.foldl g s) := by
  induction l generalizing s with
  | nil => rfl
  | cons x l ih =>
    rw [List.foldlM_cons, h x List.mem_cons_self, List.foldl_cons]
    exact ih (fun y hy => h y (List.mem_cons_of_mem _ hy)) _

/-- Accumulators side by side are accumulators on their own. -/
theorem foldl_at {κ : Type*} (f : κ → σ → β → σ) (s : κ → σ) (l : List β) (q : κ) :
    l.foldl (fun c x q => f q (c q) x) s q = l.foldl (f q) (s q) := by
  induction l generalizing s with
  | nil => rfl
  | cons x l ih => rw [List.foldl_cons, List.foldl_cons, ih]

/-! ## Loops that replace -/

section Sweep

variable {α : Type*} {N base n : Nat} {f : Nat → α → α} {m : Nat → α}

/-- `m[base + j] = f(j, m[base + j])` for `j < n`: vectors of `N` elements, then single ones. -/
def sweep (N base n : Nat) (f : Nat → α → α) (m : Nat → α) : Nat → α :=
  (List.range' (stop N 0 n) (n - stop N 0 n)).foldl
    (fun m j => Function.update m (base + j) (f j (m (base + j))))
    ((starts N 0 n).foldl
      (fun m j i => if base + j ≤ i ∧ i < base + j + N then f (i - base) (m i) else m i) m)

/-- Elements `a ≤ j < b` replaced. -/
def swept (base : Nat) (f : Nat → α → α) (a b : Nat) (m : Nat → α) : Nat → α :=
  fun i => if base + a ≤ i ∧ i < base + b then f (i - base) (m i) else m i

theorem swept_empty (a : Nat) : swept base f a a m = m := by
  funext i
  exact if_neg (by omega)

theorem swept_append {a b d : Nat} (hab : a ≤ b) (hbd : b ≤ d) :
    swept base f b d (swept base f a b m) = swept base f a d m := by
  funext i
  unfold swept
  by_cases hlate : base + b ≤ i ∧ i < base + d
  · rw [if_pos hlate, if_neg (by omega), if_pos (by omega)]
  · rw [if_neg hlate]
    congr 1
    simp only [eq_iff_iff]
    omega

theorem swept_one {j : Nat} :
    Function.update m (base + j) (f j (m (base + j))) = swept base f j (j + 1) m := by
  funext i
  unfold swept
  by_cases hi : i = base + j
  · subst hi
    rw [Function.update_self, if_pos (by omega), Nat.add_sub_cancel_left]
  · rw [Function.update_of_ne hi, if_neg (by omega)]

theorem sweep_eq : sweep N base n f m = swept base f 0 n m := by
  have hle : stop N 0 n ≤ n := stop_le (Nat.zero_le n)
  have hvectors : (starts N 0 n).foldl (fun m j i =>
      if base + j ≤ i ∧ i < base + j + N then f (i - base) (m i) else m i) m =
      swept base f 0 (stop N 0 n) m := by
    rw [starts, List.foldl_map, stop]
    refine Lines.foldl_pieces (swept base f) 0 N (fun _ => swept_empty 0)
      (fun _ h h' => swept_append h h') fun k s _ => ?_
    funext i
    rw [swept, Nat.add_assoc base]
  have hrows : ∀ s : Nat → α, (List.range' (stop N 0 n) (n - stop N 0 n)).foldl
      (fun m j => Function.update m (base + j) (f j (m (base + j)))) s = swept base f (stop N 0 n) n s := by
    intro s
    have h : (List.range (n - stop N 0 n)).foldl (fun m k => Function.update m (base + (stop N 0 n + k))
        (f (stop N 0 n + k) (m (base + (stop N 0 n + k))))) s =
        swept base f (stop N 0 n) (stop N 0 n + (n - stop N 0 n) * 1) s :=
      Lines.foldl_pieces (swept base f) (stop N 0 n) 1 (fun _ => swept_empty _)
        (fun _ h h' => swept_append h h') fun k s _ => by rw [swept_one, Nat.mul_one]
    rw [Nat.mul_one, Nat.add_sub_cancel' hle] at h
    rw [List.range'_eq_map_range, List.foldl_map, h]
  rw [sweep, hvectors, hrows, swept_append (Nat.zero_le _) hle]

theorem sweep_apply (i : Nat) :
    sweep N base n f m i = if base ≤ i ∧ i < base + n then f (i - base) (m i) else m i := by
  rw [sweep_eq]
  rfl

end Sweep

end NssFactory.Tiles
