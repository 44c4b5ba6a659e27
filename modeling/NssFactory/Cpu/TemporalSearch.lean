import NssFactory.Cpu.Batch
import NssFactory.Cpu.Layers

/-!
# The predictive search

`predictive_match` of `cpu/bm/match.cpp`, with `collect_spatial_coords` and `collect_temporal` of
`cpu/bm/matcher.hpp`. The spatial matches of the center frame seed a walk outward on either side:
a frame is searched in the windows around the best matches of the frame one step nearer, and what
it finds is merged into the group.

`predictiveMatch_eq` says what comes out: the reference, and then the least of what the center
frame and the layers hold. The reference stays in front by its place in the storage, not by the
order of matches.
-/

namespace NssFactory.Cpu

open Loops Match

def kBmMaxRadius : Int := 16

/-- The place of a patch that a coordinate is clamped to. -/
def clampPlace (b size block : Int) : Int := max 0 (min b (size - block))

/-- The candidates of a loop that counts 32-bit ordinals up from `first`. -/
def numbered (distance : Int → Int → F32) (t : Int) (first : Nat) (places : List (Int × Int)) :
    List Match :=
  places.zipIdx.map fun p => ⟨p.1.1, p.1.2, t, distance p.1.1 p.1.2, (first + p.2) % 2 ^ 32⟩

theorem numbered_coord {distance : Int → Int → F32} {t : Int} {first : Nat}
    {places : List (Int × Int)} :
    (numbered distance t first places).map coord = places.map fun p => (t, p) := by
  have hfst : places.zipIdx.map Prod.fst = places := List.zipIdx_map_fst _ _
  unfold numbered
  rw [List.map_map]
  nth_rewrite 2 [← hfst]
  rw [List.map_map]
  rfl

/-- `collect_spatial_coords`; the ordinal counts the reference's place too. -/
def collectSpatial (width height bx by_ block bmRange group : Int)
    (distance : Int → Int → F32) : List Match :=
  if width < 1 ∨ height < 1 ∨ block < 1 ∨ width < block ∨ height < block ∨ group < 1 then []
  else
    let wanted := min group kBmMaxGroup
    let cx := clampPlace bx width block
    let cy := clampPlace by_ height block
    let range := max bmRange 0
    let top := max (cy - range) 0
    let bottom := min (cy + range) (height - block)
    let left := max (cx - range) 0
    let right := min (cx + range) (width - block)
    let reference : Match := ⟨cx, cy, 0, F32.zero, 0⟩
    if wanted = 1 then [reference]
    else
      let places := (Int.range top (bottom + 1)).flatMap fun y =>
        (Int.range left (right + 1)).map fun x => (x, y)
      reference :: StableTopK.finish
        (((numbered distance 0 1 places).filter fun m => ¬(m.x = cx ∧ m.y = cy)).foldl
          (StableTopK.add (wanted - 1)) [])

/-- What `assign_temporal_order` makes of a match; the ordinal is 32 bits wide. -/
def assignTemporalOrder (t referenceT : Int) (m : Match) : Match :=
  let kFrameStride := 2 ^ 20
  { m with
    t := t
    ordinal :=
      if t = referenceT ∧ m.ordinal = 0 then 0
      else ((max t 0 + 1).toNat * kFrameStride + m.ordinal) % 2 ^ 32 }

/-- What `collect_temporal` is given: the image, the frames and the distance of a place. -/
structure Temporal where
  width : Int
  height : Int
  t0 : Int
  ntemp : Int
  cfg : SearchConfig
  distance : Int → Int → Int → F32

namespace Temporal

variable (s : Temporal)

def first : Int := max 0 s.cfg.validTBegin

def last : Int := if s.cfg.validTEnd < 0 then s.ntemp else min s.ntemp s.cfg.validTEnd

/-- The windows around the centers of a layer. -/
def windows (centers : List Match) : Windows :=
  { maxX := s.width - s.cfg.block
    maxY := s.height - s.cfg.block
    range := s.cfg.psRange
    centers := centers }

/-- The candidates of frame `t` at some places, with the ordinals of their visits. -/
def candidates (t : Int) (places : List (Int × Int)) : List Match :=
  (numbered (s.distance t) t 1 places).map (assignTemporalOrder t s.t0)

/-- One layer: the best of frame `t` in the windows around the centers. -/
def layer (t : Int) (centers : List Match) : List Match :=
  StableTopK.finish ((s.candidates t ((s.windows centers).layerVisits s.height)).foldl
    (StableTopK.add (min s.cfg.psNum s.cfg.group)) [])

/-- The walk of one side over the steps `dt`; `global` is the storage of the group. -/
def walk (sign : Int) : List Int → List Match → List Match → List Match
  | [], _, global => global
  | dt :: steps, centers, global =>
    let t := s.t0 + sign * dt
    if t < s.first ∨ t ≥ s.last then global
    else
      let found := s.layer t centers
      let global := found.foldl (StableTopK.add (s.cfg.group - 1)) global
      if found.length = 0 then global else walk sign steps found global

/-- `collect_temporal` on the matches in `out`. -/
def collectTemporal (out : List Match) : List Match :=
  let out := out.map (assignTemporalOrder s.t0 s.t0)
  if out.length = 0 ∨ s.cfg.radius = 0 ∨ s.ntemp = 1 ∨ s.cfg.group = 1 then out
  else
    let seeds := out.take (min (out.length : Int) (min s.cfg.psNum kBmMaxGroup)).toNat
    let steps := Int.range 1 (s.cfg.radius + 1)
    let global := StableTopK.adopt (s.cfg.group - 1) out.tail (out.length - 1)
    let global := s.walk (-1) steps seeds global
    let global := s.walk 1 steps seeds global
    out.take 1 ++ StableTopK.finish global

/-- The checks of `predictive_match`; its pointers are taken to be there. -/
def admits (strides : Int → Int) : Bool :=
  ¬(s.ntemp < 1 ∨ s.t0 < 0 ∨ s.t0 ≥ s.ntemp ∨ s.width < s.cfg.block ∨ s.height < s.cfg.block ∨
      s.cfg.block < 1 ∨ s.cfg.group < 1 ∨ s.cfg.group > kBmMaxGroup ∨ s.cfg.step < 1 ∨
      s.cfg.bmRange < 0 ∨ s.cfg.psNum < 1 ∨ s.cfg.psRange < 0 ∨ s.cfg.radius < 0 ∨
      s.cfg.radius > kBmMaxRadius ∨ strides s.t0 < s.width) ∧
    ¬(s.cfg.validTBegin < 0 ∨ s.cfg.validTBegin > s.t0 ∨
      s.cfg.validTEnd ≠ -1 ∧ (s.cfg.validTEnd ≤ s.t0 ∨ s.cfg.validTEnd > s.ntemp)) ∧
    ∀ t ∈ Int.range 0 s.ntemp, ¬strides t < s.width

end Temporal

/-- What a spatial search leaves in `out`: the reference, and then other places of the image. -/
structure SpatialResult (width height block cx cy group : Int) (out : List Match) : Prop where
  head : out.take 1 = [⟨cx, cy, 0, F32.zero, 0⟩]
  inside : ∀ m ∈ out, (0 ≤ m.x ∧ m.x ≤ width - block) ∧ 0 ≤ m.y ∧ m.y ≤ height - block
  nodup : (out.map fun m => (m.x, m.y)).Nodup
  length_le : (out.length : Int) ≤ min group kBmMaxGroup

/-- A spatial search of the center frame. -/
structure SpatialMatcher where
  run : (width height bx by_ block bmRange group : Int) → List Match
  result : ∀ width height bx by_ block bmRange group, 1 ≤ block → block ≤ width →
    block ≤ height → 1 ≤ group → SpatialResult width height block (clampPlace bx width block)
      (clampPlace by_ height block) group (run width height bx by_ block bmRange group)

namespace Temporal

variable (s : Temporal)

def predictiveMatch (spatialMatch : SpatialMatcher) (strides : Int → Int) (bx by_ : Int) :
    List Match :=
  if s.admits strides then
    s.collectTemporal
      (spatialMatch.run s.width s.height bx by_ s.cfg.block s.cfg.bmRange s.cfg.group)
  else []

/-! ## What the search is to find -/

/-- The best of the frame `k` steps outward on a side, over the union of the windows around the
best of the frame one step nearer. -/
def nearest (sign : Int) (seeds : List Match) : Nat → List Match
  | 0 => seeds
  | k + 1 =>
    best (min s.cfg.psNum s.cfg.group)
      (s.candidates (s.t0 + sign * (k + 1)) (s.windows (nearest sign seeds k)).union)

def valid (t : Int) : Prop := s.first ≤ t ∧ t < s.last

instance (t : Int) : Decidable (s.valid t) := by unfold valid; infer_instance

/-- What the valid frames of a side hold, from the nearest to the farthest. -/
def side (sign : Int) (seeds : List Match) : List Match :=
  (Int.range 1 (s.cfg.radius + 1)).flatMap fun dt =>
    if s.valid (s.t0 + sign * dt) then s.nearest sign seeds dt.toNat else []

/-- The matches that seed both sides. -/
def seeds (out : List Match) : List Match :=
  out.take (min (out.length : Int) (min s.cfg.psNum kBmMaxGroup)).toNat

/-- The walk without its storage. -/
def layers : Layers where
  maxX := s.width - s.cfg.block
  maxY := s.height - s.cfg.block
  range := s.cfg.psRange
  t0 := s.t0
  first := s.first
  last := s.last
  radius := s.cfg.radius
  capacity := min s.cfg.psNum s.cfg.group
  candidate := fun t i p =>
    assignTemporalOrder t s.t0 ⟨p.1, p.2, t, s.distance t p.1 p.2, (1 + i) % 2 ^ 32⟩
  coord_candidate := fun _ _ _ => rfl

/-! ## The layers -/

variable {s} {t dt sign : Int} {places : List (Int × Int)} {centers global : List Match}

theorem candidates_eq : s.candidates t places = s.layers.candidates t places := by
  unfold candidates numbered
  rw [List.map_map]
  rfl

theorem nearest_eq {seeds : List Match} {k : Nat} :
    s.nearest sign seeds k = s.layers.nearest sign seeds k := by
  induction k with
  | zero => rfl
  | succ k ih =>
    rw [nearest, ih, candidates_eq]
    rfl

theorem side_eq {seeds : List Match} : s.side sign seeds = s.layers.side sign seeds := by
  unfold side
  simp only [nearest_eq]
  rfl

/-- A layer finds the best of the union of its windows. -/
theorem layer_eq (hheight : 0 ≤ s.height) (hblock : s.cfg.block ≤ s.height) :
    s.layer t centers = best (min s.cfg.psNum s.cfg.group)
      (s.candidates t (s.windows centers).union) := by
  have hvisits : (s.windows centers).layerVisits s.height = (s.windows centers).union :=
    Windows.layerVisits_eq hheight (by simp only [windows]; omega)
  have hnd : (([] ++ s.candidates t (s.windows centers).union).map rank).Nodup := by
    rw [List.nil_append, candidates_eq]
    exact rank_nodup (Layers.candidates_nodup Windows.union_nodup)
  have hempty : LeastK rank (min s.cfg.psNum s.cfg.group).toNat [] [] := LeastK.self (by simp)
  unfold layer
  rw [hvisits]
  rw [StableTopK.run_from hnd hempty, List.nil_append]

/-- The walk of a side adds what its valid frames hold. -/
theorem walk_eq {seeds : List Match} {k : Nat} (hheight : 0 ≤ s.height)
    (hblock : s.cfg.block ≤ s.height) (hsign : sign = -1 ∨ sign = 1) (ht0 : s.valid s.t0) :
    s.walk sign (Int.range (k + 1) (s.cfg.radius + 1)) (s.layers.nearest sign seeds k) global =
      (s.layers.sideFrom sign seeds (k + 1)).foldl (StableTopK.add (s.cfg.group - 1)) global := by
  induction hn : (s.cfg.radius - k).toNat generalizing k global with
  | zero =>
    have hend : s.layers.sideFrom sign seeds (k + 1) = [] :=
      Layers.outward_end (by simp only [layers]; omega)
    rw [hend, range_empty (by omega)]
    rfl
  | succ n ih =>
    rw [range_cons (by omega), walk]
    dsimp only
    split
    · next hout =>
      have hfar : s.layers.sideFrom sign seeds (k + 1) = [] := by
        apply Layers.outward_invalid (s := s.layers) hsign ht0 (by omega)
        simp only [Layers.valid, layers]
        omega
      rw [hfar, List.foldl_nil]
    · next hin =>
      have hvalid : s.layers.valid (s.t0 + sign * (k + 1)) := by
        simp only [Layers.valid, layers]
        omega
      have hfound : s.layer (s.t0 + sign * (k + 1)) (s.layers.nearest sign seeds k) =
          s.layers.nearest sign seeds (k + 1) := by
        rw [layer_eq hheight hblock, candidates_eq]
        rfl
      have hside : s.layers.sideFrom sign seeds (k + 1) = s.layers.nearest sign seeds (k + 1) ++
          s.layers.sideFrom sign seeds (k + 1 + 1) :=
        Layers.outward_valid (by simp only [layers]; omega) hvalid
      rw [hfound, hside, List.foldl_append]
      split
      · next hempty =>
        -- an empty layer ends the walk: the farther ones are empty too
        have hnil := List.length_eq_zero_iff.mp hempty
        have hfar : s.layers.sideFrom sign seeds (k + 1 + 1) = [] :=
          Layers.sideFrom_nil (by omega) hnil
        rw [hfar, List.foldl_nil]
      · have hrest := @ih ((s.layers.nearest sign seeds (k + 1)).foldl
          (StableTopK.add (s.cfg.group - 1)) global) (k + 1) (by omega)
        push_cast at hrest
        exact hrest

/-! ## The group -/

/-- The frames of both sides are others than the center, so nothing is found twice. -/
theorem group_coord_nodup {rest : List Match} (seeds : List Match)
    (hrest : (rest.map coord).Nodup) (hframe : ∀ m ∈ rest, m.t = s.t0) :
    ((rest ++ (s.side (-1) seeds ++ s.side 1 seeds)).map coord).Nodup := by
  rw [side_eq, side_eq]
  exact Layers.group_coord_nodup seeds hrest hframe

/-- `collect_temporal` on a reference and other places of the center frame. -/
theorem collectTemporal_eq (reference : Match) {rest : List Match} (hheight : 0 ≤ s.height)
    (hblock : s.cfg.block ≤ s.height) (ht0 : s.valid s.t0)
    (hone : ¬(s.cfg.radius = 0 ∨ s.ntemp = 1 ∨ s.cfg.group = 1))
    (hlen : (rest.length : Int) ≤ s.cfg.group - 1)
    (hnd : ((rest.map (assignTemporalOrder s.t0 s.t0)).map coord).Nodup) :
    s.collectTemporal (reference :: rest) =
      assignTemporalOrder s.t0 s.t0 reference :: best (s.cfg.group - 1)
        (rest.map (assignTemporalOrder s.t0 s.t0) ++
          (s.side (-1) (s.seeds ((reference :: rest).map (assignTemporalOrder s.t0 s.t0))) ++
            s.side 1 (s.seeds ((reference :: rest).map (assignTemporalOrder s.t0 s.t0))))) := by
  have hframe : ∀ m ∈ rest.map (assignTemporalOrder s.t0 s.t0), m.t = s.t0 := by
    intro m hm
    obtain ⟨m', -, rfl⟩ := List.mem_map.mp hm
    rfl
  have hadopt : StableTopK.adopt (s.cfg.group - 1)
      (rest.map (assignTemporalOrder s.t0 s.t0)) (rest.length : Int) =
        rest.map (assignTemporalOrder s.t0 s.t0) := by
    rw [StableTopK.adopt_eq (Int.natCast_nonneg _) hlen, Int.toNat_natCast,
      List.take_of_length_le (by simp)]
  have hwalk : ∀ sign global, sign = -1 ∨ sign = 1 →
      s.walk sign (Int.range 1 (s.cfg.radius + 1))
        (s.seeds ((reference :: rest).map (assignTemporalOrder s.t0 s.t0))) global =
      (s.side sign (s.seeds ((reference :: rest).map (assignTemporalOrder s.t0 s.t0)))).foldl
        (StableTopK.add (s.cfg.group - 1)) global := by
    intro sign global hsign
    rw [side_eq]
    exact walk_eq hheight hblock hsign ht0
  have hself : LeastK rank (s.cfg.group - 1).toNat (rest.map (assignTemporalOrder s.t0 s.t0))
      (rest.map (assignTemporalOrder s.t0 s.t0)) := LeastK.self (by rw [List.length_map]; omega)
  have hall := rank_nodup (group_coord_nodup
    (s.seeds ((reference :: rest).map (assignTemporalOrder s.t0 s.t0))) hnd hframe)
  have hrun := StableTopK.run_from hall hself
  rw [← hrun, List.foldl_append, ← hwalk _ _ (.inl rfl), ← hwalk _ _ (.inr rfl)]
  unfold collectTemporal
  rw [if_neg (by simpa using hone)]
  have hlast : ((rest.length + 1 : Nat) : Int) - 1 = rest.length := by omega
  simp only [List.map_cons, List.tail_cons, List.take_succ_cons, List.take_zero, List.length_cons,
    List.length_map, hlast, hadopt, List.cons_append, List.nil_append, seeds]

theorem admits_iff {strides : Int → Int} (h : s.admits strides = true) :
    (0 ≤ s.t0 ∧ s.t0 < s.ntemp) ∧ (1 ≤ s.cfg.block ∧ s.cfg.block ≤ s.width ∧
      s.cfg.block ≤ s.height) ∧ (1 ≤ s.cfg.group ∧ s.cfg.group ≤ kBmMaxGroup) ∧
      0 ≤ s.cfg.radius ∧ s.valid s.t0 := by
  unfold admits at h
  simp only [Bool.decide_and, Bool.and_eq_true, decide_eq_true_eq, not_or] at h
  unfold valid first last
  split_ifs <;> omega

end Temporal

section Spatial

variable {width height cx cy block range : Int} {distance : Int → Int → F32}

/-- What a spatial search around the place `(cx, cy)` compares with it. -/
def spatialCandidates (width height cx cy block range : Int) (distance : Int → Int → F32) :
    List Match :=
  (numbered distance 0 1
    ((Int.range (max (cy - range) 0) (min (cy + range) (height - block) + 1)).flatMap fun y =>
      (Int.range (max (cx - range) 0) (min (cx + range) (width - block) + 1)).map fun x =>
        (x, y))).filter fun m => ¬(m.x = cx ∧ m.y = cy)

theorem spatialCandidates_coord_nodup :
    ((spatialCandidates width height cx cy block range distance).map coord).Nodup := by
  refine List.Nodup.sublist (List.filter_sublist.map coord) ?_
  rw [numbered_coord]
  exact (raster_nodup (range_nodup _ _)).map fun p q hpq => (Prod.mk.inj hpq).2

theorem mem_spatialCandidates {m : Match}
    (h : m ∈ spatialCandidates width height cx cy block range distance) :
    m.t = 0 ∧ ((0 ≤ m.x ∧ m.x ≤ width - block) ∧ 0 ≤ m.y ∧ m.y ≤ height - block) ∧
      ¬(m.x = cx ∧ m.y = cy) := by
  obtain ⟨hm, hother⟩ := List.mem_filter.mp h
  have hcoord := List.mem_map_of_mem (f := coord) hm
  rw [numbered_coord] at hcoord
  obtain ⟨p, hp, heq⟩ := List.mem_map.mp hcoord
  obtain ⟨ht, rfl⟩ := Prod.mk.inj heq
  obtain ⟨y, hy, hp⟩ := List.mem_flatMap.mp hp
  obtain ⟨x, hx, hxy⟩ := List.mem_map.mp hp
  obtain ⟨hmx, hmy⟩ := Prod.mk.inj hxy
  have hy := Int.mem_range_iff.mp hy
  have hx := Int.mem_range_iff.mp hx
  exact ⟨ht.symm, by omega, of_decide_eq_true hother⟩

/-- The generic spatial search finds the reference and the best of the others. -/
theorem collectSpatial_eq {bx by_ bmRange group : Int} (hblock : 1 ≤ block) (hwidth : block ≤ width)
    (hheight : block ≤ height) (hgroup : 1 ≤ group) :
    collectSpatial width height bx by_ block bmRange group distance =
      ⟨clampPlace bx width block, clampPlace by_ height block, 0, F32.zero, 0⟩ ::
        best (min group kBmMaxGroup - 1) (spatialCandidates width height
          (clampPlace bx width block) (clampPlace by_ height block) block (max bmRange 0)
          distance) := by
  have hchecks : ¬(width < 1 ∨ height < 1 ∨ block < 1 ∨ width < block ∨ height < block ∨
      group < 1) := by omega
  unfold collectSpatial
  rw [if_neg hchecks]
  dsimp only
  split
  · next hone =>
    rw [hone, best]
    rfl
  · generalize hcandidates : spatialCandidates width height (clampPlace bx width block)
      (clampPlace by_ height block) block (max bmRange 0) distance = candidates
    have hrank : (([] ++ candidates).map rank).Nodup :=
      hcandidates ▸ rank_nodup spatialCandidates_coord_nodup
    have hempty : LeastK rank (min group kBmMaxGroup - 1).toNat [] [] := LeastK.self (by simp)
    have hrun := StableTopK.run_from hrank hempty
    rw [List.nil_append] at hrun
    rw [← hcandidates] at hrun ⊢
    exact congrArg _ hrun

end Spatial

/-- The generic spatial search finds the reference and other places of the image. -/
theorem collectSpatial_result (distance : Int → Int → F32)
    (width height bx by_ block bmRange group : Int) (hblock : 1 ≤ block) (hwidth : block ≤ width)
    (hheight : block ≤ height) (hgroup : 1 ≤ group) :
    SpatialResult width height block (clampPlace bx width block) (clampPlace by_ height block)
      group (collectSpatial width height bx by_ block bmRange group distance) := by
  have hx : 0 ≤ clampPlace bx width block ∧ clampPlace bx width block ≤ width - block := by
    unfold clampPlace
    omega
  have hy : 0 ≤ clampPlace by_ height block ∧ clampPlace by_ height block ≤ height - block := by
    unfold clampPlace
    omega
  rw [collectSpatial_eq hblock hwidth hheight hgroup]
  generalize clampPlace bx width block = cx at *
  generalize clampPlace by_ height block = cy at *
  generalize hcandidates : spatialCandidates width height cx cy block (max bmRange 0) distance =
    candidates
  have hcoord : (candidates.map coord).Nodup := hcandidates ▸ spatialCandidates_coord_nodup
  have hmem : ∀ m ∈ candidates, m.t = 0 ∧ ((0 ≤ m.x ∧ m.x ≤ width - block) ∧ 0 ≤ m.y ∧
      m.y ≤ height - block) ∧ ¬(m.x = cx ∧ m.y = cy) := by
    intro m hm
    rw [← hcandidates] at hm
    exact mem_spatialCandidates hm
  have hlen := (@best_least (min group kBmMaxGroup - 1) candidates (rank_nodup hcoord)).1
  have hwanted : 1 ≤ min group kBmMaxGroup := by
    unfold kBmMaxGroup
    omega
  refine ⟨rfl, ?_, ?_, ?_⟩
  · intro m hm
    rcases List.mem_cons.mp hm with rfl | hm
    · exact ⟨hx, hy⟩
    · exact (hmem m (mem_of_mem_best hm)).2.1
  · refine List.nodup_cons.mpr ⟨?_, ?_⟩
    · intro hself
      obtain ⟨m, hm, heq⟩ := List.mem_map.mp hself
      exact (hmem m (mem_of_mem_best hm)).2.2 (Prod.mk.inj heq)
    · have hbest := best_coord_nodup (min group kBmMaxGroup - 1) hcoord
      rw [List.Nodup, List.pairwise_map] at hbest ⊢
      apply hbest.imp_of_mem
      intro a b ha hb hne heq
      have hta := (hmem a (mem_of_mem_best ha)).1
      have htb := (hmem b (mem_of_mem_best hb)).1
      apply hne
      rw [coord, coord, hta, htb]
      exact congrArg (Prod.mk 0) heq
  · rw [List.length_cons, hlen]
    omega

def genericMatcher (distance : Int → Int → F32) : SpatialMatcher where
  run := fun width height bx by_ block bmRange group =>
    collectSpatial width height bx by_ block bmRange group distance
  result := collectSpatial_result distance

namespace Temporal

variable {s : Temporal}

/-- What an order in time makes of spatial matches: their places stay, their frame is the
center. -/
theorem assigned_coord {out : List Match} (h : (out.map fun m => (m.x, m.y)).Nodup) :
    ((out.map (assignTemporalOrder s.t0 s.t0)).map coord).Nodup := by
  rw [List.map_map]
  have hmap : out.map (coord ∘ assignTemporalOrder s.t0 s.t0) =
      (out.map fun m => (m.x, m.y)).map fun p => (s.t0, p) := by
    rw [List.map_map]
    rfl
  rw [hmap]
  exact h.map fun p q hpq => (Prod.mk.inj hpq).2

/-- The predictive search: the reference, then the least of what the center frame holds and of
what each valid frame holds in the union of the windows around the best of the frame one step
nearer. -/
theorem predictiveMatch_eq (s : Temporal) (spatialMatch : SpatialMatcher) (strides : Int → Int)
    (bx by_ : Int) (h : s.admits strides = true) :
    let out := (spatialMatch.run s.width s.height bx by_ s.cfg.block s.cfg.bmRange
      s.cfg.group).map (assignTemporalOrder s.t0 s.t0)
    let found := s.predictiveMatch spatialMatch strides bx by_
    let reference : Match :=
      ⟨clampPlace bx s.width s.cfg.block, clampPlace by_ s.height s.cfg.block, s.t0, F32.zero, 0⟩
    (found = if s.cfg.radius = 0 ∨ s.ntemp = 1 ∨ s.cfg.group = 1 then out
      else reference :: best (s.cfg.group - 1)
        (out.tail ++ (s.side (-1) (s.seeds out) ++ s.side 1 (s.seeds out)))) ∧
      found.head? = some reference ∧
      (found.length : Int) ≤ s.cfg.group ∧
      (found.map coord).Nodup ∧
      (∀ m ∈ found, s.valid m.t ∧ (0 ≤ m.x ∧ m.x ≤ s.width - s.cfg.block) ∧ 0 ≤ m.y ∧
        m.y ≤ s.height - s.cfg.block) ∧
      ∀ centers, (s.windows centers).layerVisits s.height = (s.windows centers).union ∧
        (s.windows centers).union.Nodup := by
  obtain ⟨ht0, ⟨hblock, hwidth, hheight⟩, ⟨hgroup, hgroup'⟩, hradius, hvalid⟩ := admits_iff h
  have hresult := spatialMatch.result s.width s.height bx by_ s.cfg.block s.cfg.bmRange
    s.cfg.group hblock hwidth hheight hgroup
  intro out found reference
  have hwindows : ∀ centers, (s.windows centers).layerVisits s.height =
      (s.windows centers).union ∧ (s.windows centers).union.Nodup := fun centers =>
    ⟨Windows.layerVisits_eq (by omega) (by simp only [windows]; omega), Windows.union_nodup⟩
  have hfound : found = s.collectTemporal (spatialMatch.run s.width s.height bx by_ s.cfg.block
      s.cfg.bmRange s.cfg.group) := if_pos h
  have hcoord : (out.map coord).Nodup := assigned_coord hresult.nodup
  have hinside : ∀ m ∈ out, m.t = s.t0 ∧ (0 ≤ m.x ∧ m.x ≤ s.width - s.cfg.block) ∧ 0 ≤ m.y ∧
      m.y ≤ s.height - s.cfg.block := by
    intro m hm
    obtain ⟨m', hm', rfl⟩ := List.mem_map.mp hm
    exact ⟨rfl, hresult.inside m' hm'⟩
  have hlen : (out.length : Int) ≤ s.cfg.group := by
    have := hresult.length_le
    rw [List.length_map]
    omega
  obtain ⟨rest, hspatial⟩ : ∃ rest, spatialMatch.run s.width s.height bx by_ s.cfg.block
      s.cfg.bmRange s.cfg.group = ⟨clampPlace bx s.width s.cfg.block,
        clampPlace by_ s.height s.cfg.block, 0, F32.zero, 0⟩ :: rest := by
    have hhead := hresult.head
    cases hrun : spatialMatch.run s.width s.height bx by_ s.cfg.block s.cfg.bmRange
        s.cfg.group with
    | nil =>
      rw [hrun] at hhead
      exact absurd hhead (by simp)
    | cons m rest =>
      rw [hrun] at hhead
      exact ⟨rest, by simpa using hhead⟩
  have hout : out = reference :: rest.map (assignTemporalOrder s.t0 s.t0) := by
    have hreference : assignTemporalOrder s.t0 s.t0 ⟨clampPlace bx s.width s.cfg.block,
        clampPlace by_ s.height s.cfg.block, 0, F32.zero, 0⟩ = reference := by
      simp [assignTemporalOrder, reference]
    rw [← hreference, ← List.map_cons, ← hspatial]
  by_cases hone : s.cfg.radius = 0 ∨ s.ntemp = 1 ∨ s.cfg.group = 1
  · -- nothing but the center frame
    have hsame : found = out := by
      rw [hfound, collectTemporal]
      simp only [hone, or_true, if_true]
      rfl
    rw [if_pos hone, hsame]
    refine ⟨rfl, by rw [hout]; rfl, hlen, hcoord, fun m hm => ?_, hwindows⟩
    obtain ⟨ht, hplace⟩ := hinside m hm
    exact ⟨ht ▸ hvalid, hplace⟩
  · have htail : out.tail = rest.map (assignTemporalOrder s.t0 s.t0) := by rw [hout]; rfl
    have hrest : (out.tail.map coord).Nodup := hcoord.sublist ((List.tail_sublist _).map coord)
    have hframe : ∀ m ∈ out.tail, m.t = s.t0 := fun m hm => (hinside m (List.mem_of_mem_tail hm)).1
    have hgroup_nodup := group_coord_nodup (s.seeds out) hrest hframe
    have hform : found = reference :: best (s.cfg.group - 1)
        (out.tail ++ (s.side (-1) (s.seeds out) ++ s.side 1 (s.seeds out))) := by
      have hlen' : (rest.length : Int) ≤ s.cfg.group - 1 := by
        rw [hout, List.length_cons, List.length_map] at hlen
        omega
      have hcollect := collectTemporal_eq ⟨clampPlace bx s.width s.cfg.block,
        clampPlace by_ s.height s.cfg.block, 0, F32.zero, 0⟩ (by omega) hheight hvalid hone
        hlen' (htail ▸ hrest)
      rw [hfound, hspatial, hcollect, htail, ← hspatial]
      congr 1
      simp [assignTemporalOrder, reference]
    have hsides : ∀ m ∈ s.side (-1) (s.seeds out) ++ s.side 1 (s.seeds out), s.valid m.t ∧
        m.t ≠ s.t0 ∧ (0 ≤ m.x ∧ m.x ≤ s.width - s.cfg.block) ∧ 0 ≤ m.y ∧
          m.y ≤ s.height - s.cfg.block := by
      intro m hm
      rw [side_eq, side_eq] at hm
      exact Layers.group_inside hm
    rw [if_neg hone, hform]
    refine ⟨rfl, rfl, ?_, ?_, ?_, hwindows⟩
    · rw [List.length_cons, (best_least (rank_nodup hgroup_nodup)).1]
      omega
    · refine List.nodup_cons.mpr ⟨?_, best_coord_nodup _ hgroup_nodup⟩
      intro hself
      obtain ⟨m, hm, heq⟩ := List.mem_map.mp hself
      rcases List.mem_append.mp (mem_of_mem_best hm) with hm | hm
      · rw [hout, List.map_cons] at hcoord
        rw [htail] at hm
        exact (List.nodup_cons.mp hcoord).1 (heq ▸ List.mem_map_of_mem hm)
      · exact (hsides m hm).2.1 (Prod.mk.inj heq).1
    · intro m hm
      rcases List.mem_cons.mp hm with rfl | hm
      · have href : reference ∈ out := by
          rw [hout]
          exact List.mem_cons_self
        exact ⟨hvalid, (hinside _ href).2⟩
      · rcases List.mem_append.mp (mem_of_mem_best hm) with hm | hm
        · obtain ⟨ht, hplace⟩ := hinside m (List.mem_of_mem_tail hm)
          exact ⟨ht ▸ hvalid, hplace⟩
        · obtain ⟨hv, -, hplace⟩ := hsides m hm
          exact ⟨hv, hplace⟩

/-- A search of two frames of one pixel. -/
def twoPixels (distance : F32) : Temporal where
  width := 1
  height := 1
  t0 := 0
  ntemp := 2
  cfg := ⟨1, 1, 2, 1, 1, 1, 1, 0, -1⟩
  distance := fun t _ _ => if t = 0 then F32.zero else distance

/-- The group of two equal pixels. -/
theorem predictiveMatch_eq_twoPixels :
    ((twoPixels F32.zero).predictiveMatch (genericMatcher fun _ _ => F32.zero)
      (fun _ => 1) 0 0).head? = some ⟨0, 0, 0, F32.zero, 0⟩ :=
  (predictiveMatch_eq (twoPixels F32.zero) (genericMatcher fun _ _ => F32.zero) (fun _ => 1) 0 0
    (by decide)).2.1

/-- A negative distance precedes the reference in the order of matches, but not in the group. -/
theorem reference_pinned :
    ¬ ∀ (s : Temporal) (spatialMatch : SpatialMatcher) (strides : Int → Int) (bx by_ : Int),
      s.admits strides = true →
      s.predictiveMatch spatialMatch strides bx by_ =
        let out := (spatialMatch.run s.width s.height bx by_ s.cfg.block s.cfg.bmRange
          s.cfg.group).map (assignTemporalOrder s.t0 s.t0)
        best s.cfg.group (out ++ (s.side (-1) (s.seeds out) ++ s.side 1 (s.seeds out))) := by
  intro h
  have hbest := h (twoPixels 0xbf800000#32) (genericMatcher fun _ _ => F32.zero) (fun _ => 1) 0 0
    (by decide)
  exact absurd hbest (by decide)

end Temporal

end NssFactory.Cpu
