import Mathlib.Data.List.Sort
import NssFactory.Lib.LeastK

/-!
# Grouped work

Programs that share work among jobs sort the jobs by what they share, take the runs of equal
ones, and look values up in a sorted list without repetitions. `runs` cuts a list into its runs
(`runs_flatten`, `runs_equal`), `distinct` is what sorting and erasing repetitions leaves, and
`lowerBound` finds each of its elements (`getElem_lowerBound`).
-/

namespace NssFactory.Groups

variable {α κ : Type*}

/-! ## Runs -/

/-- Maximal runs of elements with the key of their first. -/
def runs [DecidableEq κ] (key : α → κ) : List α → List (List α)
  | [] => []
  | a :: l => (a :: l.takeWhile fun b => key b = key a) :: runs key (l.dropWhile fun b => key b = key a)
termination_by l => l.length
decreasing_by exact Nat.lt_succ_of_le (List.dropWhile_sublist _).length_le

variable [DecidableEq κ] {key : α → κ} {l run : List α}

theorem runs_flatten (key : α → κ) (l : List α) : (runs key l).flatten = l := by
  induction l using runs.induct key with
  | case1 => rw [runs, List.flatten_nil]
  | case2 a l ih => rw [runs, List.flatten_cons, ih, List.cons_append, List.takeWhile_append_dropWhile]

/-- The first of a run is there, and all have its key. -/
theorem runs_equal (h : run ∈ runs key l) : ∃ a rest, run = a :: rest ∧ ∀ b ∈ run, key b = key a := by
  induction l using runs.induct key with
  | case1 => simp [runs] at h
  | case2 a l ih =>
    rw [runs] at h
    rcases List.mem_cons.mp h with rfl | h
    · refine ⟨a, _, rfl, fun b hb => ?_⟩
      rcases List.mem_cons.mp hb with rfl | hb
      · rfl
      · simpa using List.all_eq_true.mp List.all_takeWhile b hb
    · exact ih h

/-! ## Sorted without repetitions -/

/-- `std::unique` keeps the first of equal neighbours. -/
def unique : List Nat → List Nat
  | [] => []
  | [a] => [a]
  | a :: b :: l => if a = b then unique (b :: l) else a :: unique (b :: l)

def distinct (l : List Nat) : List Nat := unique (sortBy id l)

/-- `std::lower_bound`: the end of the elements below `x`. -/
def lowerBound (l : List Nat) (x : Nat) : Nat := (l.takeWhile fun y => y < x).length

variable {s : List Nat} {x : Nat}

theorem mem_unique : x ∈ unique s ↔ x ∈ s := by
  induction s using unique.induct with
  | case1 => simp [unique]
  | case2 a => simp [unique]
  | case3 b l ih => simp [unique, ih]
  | case4 a b l h ih => simp [unique, h, ih]

theorem unique_lt (h : s.Pairwise (· ≤ ·)) : (unique s).Pairwise (· < ·) := by
  induction s using unique.induct with
  | case1 => simp [unique]
  | case2 a => simp [unique]
  | case3 b l ih =>
    rw [unique, if_pos rfl]
    exact ih h.of_cons
  | case4 a b l hne ih =>
    rw [unique, if_neg hne]
    refine List.pairwise_cons.mpr ⟨fun c hc => ?_, ih h.of_cons⟩
    have hab := List.rel_of_pairwise_cons h List.mem_cons_self
    rcases List.mem_cons.mp (mem_unique.mp hc) with rfl | hc
    · omega
    · have := List.rel_of_pairwise_cons h.of_cons hc
      omega

theorem mem_distinct : x ∈ distinct s ↔ x ∈ s := mem_unique.trans (sortBy_perm id s).mem_iff

theorem distinct_lt (s : List Nat) : (distinct s).Pairwise (· < ·) := unique_lt (sortBy_le id s)

/-- A member of a strictly increasing list is where `lower_bound` points. -/
theorem getElem_lowerBound (hs : s.Pairwise (· < ·)) (hx : x ∈ s) : s[lowerBound s x]? = some x := by
  induction s with
  | nil => simp at hx
  | cons a s ih =>
    rcases List.mem_cons.mp hx with rfl | hx
    · simp [lowerBound]
    · have ha : a < x := List.rel_of_pairwise_cons hs hx
      simpa [lowerBound, ha] using ih hs.of_cons hx

end NssFactory.Groups
