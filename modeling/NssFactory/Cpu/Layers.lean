import Mathlib.Algebra.Group.Nat.Defs
import NssFactory.Cpu.TopK
import NssFactory.Cpu.Windows

/-!
# The layers of a search in time

What the predictive searches are to find, without their storage: outward from the center frame,
the best of each frame over the union of the windows around the best of the frame one step
nearer (`Layers.nearest`, `Layers.side`). Matches of different frames or places have different
ranks, so that the best of them are a list that no order of insertion changes.
-/

namespace NssFactory.Cpu

open Loops Match

/-- The frame and the place of a match. -/
def Match.coord (m : Match) : Int × Int × Int := (m.t, m.x, m.y)

theorem best_sublist_perm (capacity : Int) (l : List Match) :
    ∃ l', l'.Perm l ∧ (best capacity l).Sublist l' :=
  ⟨sortMatches l, by rw [sortMatches_eq]; exact sortBy_perm _ _, List.take_sublist _ _⟩

theorem mem_of_mem_best {capacity : Int} {l : List Match} {m : Match} (h : m ∈ best capacity l) :
    m ∈ l := by
  obtain ⟨l', hperm, hsub⟩ := best_sublist_perm capacity l
  exact hperm.mem_iff.mp (hsub.subset h)

theorem best_coord_nodup (capacity : Int) {l : List Match} (h : (l.map coord).Nodup) :
    ((best capacity l).map coord).Nodup := by
  obtain ⟨l', hperm, hsub⟩ := best_sublist_perm capacity l
  exact (((hperm.map coord).nodup_iff).mpr h).sublist (hsub.map coord)

/-- Different frames or places have different ranks. -/
theorem rank_nodup {l : List Match} (h : (l.map coord).Nodup) : (l.map rank).Nodup := by
  apply nodup_rank
  rw [List.Nodup, List.pairwise_map] at h ⊢
  apply h.imp
  intro a b hne heq
  simp only [place, Prod.mk.injEq] at heq
  exact hne (by simp [coord, heq])

theorem best_append_nodup {capacity : Int} {l l' : List Match}
    (hnd : ((l ++ l').map rank).Nodup) : ((best capacity l ++ l').map rank).Nodup := by
  unfold best
  rw [sortMatches_eq]
  have hperm : ((sortBy rank l ++ l').map rank).Nodup :=
    (((sortBy_perm rank l).append_right l').map rank).nodup_iff.mpr hnd
  exact hperm.sublist (((List.take_sublist _ _).append_right l').map rank)

/-- The best of a part stand for the part. -/
theorem best_append {capacity : Int} {l l' : List Match} (hnd : ((l ++ l').map rank).Nodup) :
    best capacity (best capacity l ++ l') = best capacity (l ++ l') := by
  have hl : (l.map rank).Nodup := by
    rw [List.map_append] at hnd
    exact hnd.of_append_left
  have hsub : ((best capacity l ++ l').map rank).Nodup := best_append_nodup hnd
  unfold best at hsub ⊢
  rw [sortMatches_eq] at hsub
  rw [sortMatches_eq, sortMatches_eq, sortMatches_eq]
  have hpart : LeastK rank capacity.toNat l _ := LeastK.take_sortBy hl
  have hall := hpart.append (LeastK.take_sortBy hsub) hnd
  exact hall.sorted_eq hnd (List.Perm.refl _) ((sortBy_lt hsub).sublist (List.take_sublist _ _))

/-- A search outward from frame `t0` over the frames `first … last - 1`. `candidate t i p`: the
match of place `p`, the `i`-th that is visited in frame `t`. -/
structure Layers where
  maxX : Int
  maxY : Int
  range : Int
  t0 : Int
  first : Int
  last : Int
  radius : Int
  capacity : Int
  candidate : Int → Nat → Int × Int → Match
  coord_candidate : ∀ t i p, (candidate t i p).coord = (t, p)

namespace Layers

variable (s : Layers)

/-- The windows around the centers of a layer. -/
def windows (centers : List Match) : Windows where
  maxX := s.maxX
  maxY := s.maxY
  range := s.range
  centers := centers

/-- The candidates of frame `t` at the places that are visited. -/
def candidates (t : Int) (places : List (Int × Int)) : List Match :=
  places.zipIdx.map fun p => s.candidate t p.2 p.1

/-- The best of the frame `k` steps outward on a side, over the union of the windows around the
best of the frame one step nearer. -/
def nearest (sign : Int) (seeds : List Match) : Nat → List Match
  | 0 => seeds
  | k + 1 =>
    best s.capacity
      (s.candidates (s.t0 + sign * (k + 1)) (s.windows (nearest sign seeds k)).union)

def valid (t : Int) : Prop := s.first ≤ t ∧ t < s.last

instance (t : Int) : Decidable (s.valid t) := by unfold valid; infer_instance

/-- What `f` finds in the valid frames of a side, from step `dt` on. -/
def outward {α : Type*} (sign : Int) (f : Nat → List α) (dt : Int) : List α :=
  (Int.range dt (s.radius + 1)).flatMap fun dt =>
    if s.valid (s.t0 + sign * dt) then f dt.toNat else []

/-- What the valid frames of a side hold, from step `dt` on. -/
def sideFrom (sign : Int) (seeds : List Match) (dt : Int) : List Match :=
  s.outward sign (s.nearest sign seeds) dt

/-- The places that are visited in the frame `k` steps outward. -/
def visitsAt (sign : Int) (seeds : List Match) (k : Nat) : List (Int × Int × Int) :=
  (s.windows (s.nearest sign seeds (k - 1))).union.map fun p => (s.t0 + sign * k, p)

/-- The places that are visited in the valid frames of a side, from step `dt` on. -/
def visitsFrom (sign : Int) (seeds : List Match) (dt : Int) : List (Int × Int × Int) :=
  s.outward sign (s.visitsAt sign seeds) dt

/-- What the valid frames of a side hold, from the nearest to the farthest. -/
def side (sign : Int) (seeds : List Match) : List Match := s.sideFrom sign seeds 1

variable {s} {t dt sign : Int} {places : List (Int × Int)} {seeds : List Match} {k : Nat}

theorem candidates_coord : (s.candidates t places).map coord = places.map fun p => (t, p) := by
  have hfst : places.zipIdx.map Prod.fst = places := List.zipIdx_map_fst _ _
  unfold candidates
  rw [List.map_map]
  nth_rewrite 2 [← hfst]
  rw [List.map_map]
  exact List.map_congr_left fun p _ => s.coord_candidate t p.2 p.1

theorem candidates_nodup (h : places.Nodup) : ((s.candidates t places).map coord).Nodup := by
  rw [candidates_coord]
  exact h.map fun p q hpq => (Prod.mk.inj hpq).2

theorem mem_candidates {m : Match} (h : m ∈ s.candidates t places) :
    m.t = t ∧ (m.x, m.y) ∈ places := by
  have hcoord : m.coord ∈ (s.candidates t places).map coord := List.mem_map_of_mem h
  rw [candidates_coord] at hcoord
  obtain ⟨p, hp, heq⟩ := List.mem_map.mp hcoord
  obtain ⟨ht, rfl⟩ := Prod.mk.inj heq
  exact ⟨ht.symm, hp⟩

theorem union_nil : (s.windows []).union = [] := by
  apply List.eq_nil_iff_forall_not_mem.mpr
  intro p hp
  obtain ⟨-, -, c, hc, -⟩ := Windows.mem_union.mp hp
  exact absurd hc List.not_mem_nil

theorem best_nil (capacity : Int) : best capacity [] = [] := by
  simp [best, sortMatches]

/-- A side that has lost all its centers finds nothing any more. -/
theorem nearest_nil {j : Nat} (hkj : k ≤ j) (h : s.nearest sign seeds k = []) :
    s.nearest sign seeds j = [] := by
  induction hkj with
  | refl => exact h
  | step _ ih =>
    rw [nearest, ih, union_nil]
    exact best_nil _

theorem nearest_frame {m : Match} (h : m ∈ s.nearest sign seeds (k + 1)) :
    m.t = s.t0 + sign * (k + 1) :=
  (mem_candidates (mem_of_mem_best h)).1

theorem nearest_inside {m : Match} (h : m ∈ s.nearest sign seeds (k + 1)) :
    (0 ≤ m.x ∧ m.x ≤ s.maxX) ∧ 0 ≤ m.y ∧ m.y ≤ s.maxY := by
  obtain ⟨hx, hy, -⟩ := Windows.mem_union.mp (mem_candidates (mem_of_mem_best h)).2
  exact ⟨hx, hy⟩

theorem nearest_coord_nodup : ((s.nearest sign seeds (k + 1)).map coord).Nodup :=
  best_coord_nodup _ (candidates_nodup Windows.union_nodup)

/-! ## The frames of a side, one after the other -/

variable {α : Type*} {f : Nat → List α}

theorem outward_end (h : s.radius < dt) : s.outward sign f dt = [] := by
  rw [outward, range_empty (by omega), List.flatMap_nil]

theorem outward_valid (h : (k : Int) + 1 ≤ s.radius) (hvalid : s.valid (s.t0 + sign * (k + 1))) :
    s.outward sign f (k + 1) = f (k + 1) ++ s.outward sign f (k + 1 + 1) := by
  have hk : ((k : Int) + 1).toNat = k + 1 := by omega
  rw [outward, range_cons (by omega), List.flatMap_cons, if_pos hvalid, hk, outward]

/-- Outward of a frame that is not valid there is no valid one. -/
theorem outward_invalid (hsign : sign = -1 ∨ sign = 1) (ht0 : s.valid s.t0) (hdt : 0 ≤ dt)
    (h : ¬s.valid (s.t0 + sign * dt)) : s.outward sign f dt = [] := by
  apply List.flatMap_eq_nil_iff.mpr
  intro dt' hdt'
  have hdt' := Int.mem_range_iff.mp hdt'
  apply if_neg
  unfold valid at *
  rcases hsign with rfl | rfl <;> omega

theorem outward_nil (hdt : (k : Int) ≤ dt) (h : ∀ j, k ≤ j → f j = []) :
    s.outward sign f dt = [] := by
  apply List.flatMap_eq_nil_iff.mpr
  intro dt' hdt'
  have hdt' := Int.mem_range_iff.mp hdt'
  split
  · exact h _ (by omega)
  · rfl

theorem sideFrom_nil (hdt : (k : Int) ≤ dt) (h : s.nearest sign seeds k = []) :
    s.sideFrom sign seeds dt = [] :=
  outward_nil hdt fun _ hkj => nearest_nil hkj h

theorem mem_visitsAt {q : Int × Int × Int} : q ∈ s.visitsAt sign seeds (k + 1) ↔
    q.1 = s.t0 + sign * (k + 1) ∧ q.2 ∈ (s.windows (s.nearest sign seeds k)).union := by
  rw [visitsAt, List.mem_map, Nat.add_sub_cancel, Int.natCast_succ]
  constructor
  · rintro ⟨p, hp, rfl⟩
    exact ⟨rfl, hp⟩
  · rintro ⟨ht, hp⟩
    exact ⟨q.2, hp, by rw [← ht]⟩

/-- Beyond a layer without matches nothing is visited. -/
theorem visitsFrom_nil (hdt : (k : Int) < dt) (h : s.nearest sign seeds k = []) :
    s.visitsFrom sign seeds dt = [] := by
  apply outward_nil (k := k + 1) (by omega)
  intro j hj
  rw [visitsAt, nearest_nil (by omega) h, union_nil, List.map_nil]

theorem mem_side {m : Match} (h : m ∈ s.side sign seeds) :
    ∃ k : Nat, (k : Int) < s.radius ∧ s.valid m.t ∧ m.t = s.t0 + sign * (k + 1) ∧
      m ∈ s.nearest sign seeds (k + 1) := by
  obtain ⟨dt, hdt, hm⟩ := List.mem_flatMap.mp h
  have hdt := Int.mem_range_iff.mp hdt
  split at hm
  · next hvalid =>
    obtain ⟨k, rfl⟩ : ∃ k : Nat, dt = k + 1 := ⟨(dt - 1).toNat, by omega⟩
    rw [show ((k : Int) + 1).toNat = k + 1 by omega] at hm
    have ht := nearest_frame hm
    exact ⟨k, by omega, ht ▸ hvalid, ht, hm⟩
  · exact absurd hm List.not_mem_nil

theorem side_coord_nodup (hsign : sign = -1 ∨ sign = 1) :
    ((s.side sign seeds).map coord).Nodup := by
  rw [side, sideFrom, outward, List.map_flatMap]
  apply List.nodup_flatMap.mpr
  constructor
  · intro dt hdt
    have hdt := Int.mem_range_iff.mp hdt
    split
    · rw [show dt.toNat = (dt - 1).toNat + 1 by omega]
      exact nearest_coord_nodup
    · exact List.nodup_nil
  · apply (range_pairwise _ _).imp_of_mem
    intro a b ha hb hab x hx hy
    have ha := Int.mem_range_iff.mp ha
    have hframe : ∀ dt, 1 ≤ dt → x ∈ (if s.valid (s.t0 + sign * dt) then
        s.nearest sign seeds dt.toNat else []).map coord → x.1 = s.t0 + sign * dt := by
      intro dt hdt hx
      obtain ⟨m, hm, rfl⟩ := List.mem_map.mp hx
      split at hm
      · rw [show dt.toNat = (dt - 1).toNat + 1 by omega] at hm
        have hstep : (((dt - 1).toNat : Nat) : Int) + 1 = dt := by omega
        have ht := nearest_frame hm
        rw [hstep] at ht
        rw [coord, ht]
      · exact absurd hm List.not_mem_nil
    have hxa := hframe a ha.1 hx
    have hxb := hframe b (by omega) hy
    rcases hsign with rfl | rfl <;> omega

/-- The frames of both sides are others than the center, so nothing is found twice. -/
theorem group_coord_nodup {rest : List Match} (seeds : List Match)
    (hrest : (rest.map coord).Nodup) (hframe : ∀ m ∈ rest, m.t = s.t0) :
    ((rest ++ (s.side (-1) seeds ++ s.side 1 seeds)).map coord).Nodup := by
  have hside : ∀ sign, ∀ m ∈ s.side sign seeds, ∃ k : Nat, m.t = s.t0 + sign * (k + 1) :=
    fun sign m hm => let ⟨k, _, _, ht, _⟩ := mem_side hm; ⟨k, ht⟩
  have hframes : ∀ {a b : Match}, a.t ≠ b.t → a.coord ≠ b.coord :=
    fun hne heq => hne (Prod.mk.inj heq).1
  rw [List.map_append, List.map_append]
  refine List.nodup_append.mpr ⟨hrest, List.nodup_append.mpr
    ⟨side_coord_nodup (.inl rfl), side_coord_nodup (.inr rfl), ?_⟩, ?_⟩
  · intro x hx y hy
    obtain ⟨a, ha, rfl⟩ := List.mem_map.mp hx
    obtain ⟨b, hb, rfl⟩ := List.mem_map.mp hy
    obtain ⟨k, hk⟩ := hside _ a ha
    obtain ⟨j, hj⟩ := hside _ b hb
    exact hframes (by omega)
  · intro x hx y hy
    obtain ⟨a, ha, rfl⟩ := List.mem_map.mp hx
    rw [← List.map_append] at hy
    obtain ⟨b, hb, rfl⟩ := List.mem_map.mp hy
    have ht := hframe a ha
    rcases List.mem_append.mp hb with hb | hb
    · obtain ⟨k, hk⟩ := hside _ b hb
      exact hframes (by omega)
    · obtain ⟨k, hk⟩ := hside _ b hb
      exact hframes (by omega)

/-- What is found on the sides. -/
theorem group_inside {seeds : List Match} {m : Match}
    (h : m ∈ s.side (-1) seeds ++ s.side 1 seeds) :
    s.valid m.t ∧ m.t ≠ s.t0 ∧ (0 ≤ m.x ∧ m.x ≤ s.maxX) ∧ 0 ≤ m.y ∧ m.y ≤ s.maxY := by
  rcases List.mem_append.mp h with h | h
  · obtain ⟨k, -, hvalid, ht, hm⟩ := mem_side h
    exact ⟨hvalid, by omega, nearest_inside hm⟩
  · obtain ⟨k, -, hvalid, ht, hm⟩ := mem_side h
    exact ⟨hvalid, by omega, nearest_inside hm⟩

end Layers

end NssFactory.Cpu
