import NssFactory.Cpu.Layers
import NssFactory.Lib.BitMask

/-!
# The search of an image

`image_match` of `cpu/common/image.cpp`, the search of TWSC, NCSR, NLH and MCWNNM. Two builds
scan the window of the center frame: one place by place into `StableTopK`, one row by row into
`SortedTopK`, where a full list visits only the candidates that `ImageRowCandidates` reports and
rejects what is farther than its worst. `imageMatch_eq` says that both fail for the same
searches, and find the same matches in the others.
-/

namespace NssFactory.Cpu

open Loops Match

/-- What a search needs of a top-k policy; `Holds capacity seen storage` is what it keeps. -/
structure ImageTopK where
  add : Int → List Match → Match → List Match
  finish : Int → List Match → List Match
  Holds : Int → List Match → List Match → Prop
  nil : ∀ {capacity}, Holds capacity [] []
  add_holds : ∀ {capacity seen storage x}, ((seen ++ [x]).map rank).Nodup →
    Holds capacity seen storage → Holds capacity (seen ++ [x]) (add capacity storage x)
  finish_eq : ∀ {capacity seen storage}, (seen.map rank).Nodup → Holds capacity seen storage →
    finish capacity storage = best capacity seen

namespace ImageTopK

def stable : ImageTopK where
  add := StableTopK.add
  finish := fun _ => StableTopK.finish
  Holds := fun capacity => LeastK rank capacity.toNat
  nil := LeastK.self (by simp)
  add_holds := StableTopK.add_least
  finish_eq := finish_least

def sorted : ImageTopK where
  add := SortedTopK.add
  finish := SortedTopK.finish
  Holds := SortedTopK.Holds
  nil := SortedTopK.Holds.nil
  add_holds := fun hnd h => h.add hnd
  finish_eq := fun hnd h => h.finish_eq hnd

theorem holds_foldl (p : ImageTopK) {capacity : Int} {seen candidates storage : List Match}
    (hnd : ((seen ++ candidates).map rank).Nodup) (h : p.Holds capacity seen storage) :
    p.Holds capacity (seen ++ candidates) (candidates.foldl (p.add capacity) storage) :=
  foldl_seen hnd h fun _ _ _ hx hs => p.add_holds hx hs

theorem run (p : ImageTopK) {capacity : Int} {candidates : List Match}
    (hnd : (candidates.map rank).Nodup) :
    p.finish capacity (candidates.foldl (p.add capacity) []) = best capacity candidates :=
  p.finish_eq hnd (@holds_foldl p capacity [] candidates [] hnd p.nil)

end ImageTopK

/-- The build: without row kernels, or with one of `lanes` floats in a vector. -/
inductive ImageBuild
  | generic
  | rows (lanes : Nat) (divides : lanes ∣ 64)

def ImageBuild.topK : ImageBuild → ImageTopK
  | generic => .stable
  | rows _ _ => .sorted

structure ImageSearch where
  block : Int
  group : Int
  window : Int
  radius : Int
  psNum : Int
  psRange : Int

/-- What `image_match` is given. `ssd c t x y`: `image_ssd` of channel `c` between the reference
and a place of frame `t`; the row kernel's distances are the same. `add` is the addition of
floats, of which the source needs that `0 + ssd_c0 == ssd_c0` exactly. -/
structure ImageScan where
  frames : Int
  nch : Int
  width : Int
  height : Int
  t0 : Int
  x0 : Int
  y0 : Int
  cfg : ImageSearch
  ssd : (c t x y : Int) → F32
  add : F32 → F32 → F32
  zero_add : ∀ t x y, add F32.zero (ssd 0 t x y) = ssd 0 t x y

/-- The rows of distances of the scan with row kernels. -/
structure RowBuffers where
  dist : Nat → F32
  tmp : Nat → F32

/-- The lanes of a vector that are taken, as the bits of a word. -/
def takenLanes (lanes : Nat) (take : Nat → Bool) : BitVec 64 :=
  (BitVec.ofBoolListLE ((List.range lanes).map take)).setWidth 64

/-- `ImageRowCandidates`: the words of the mask of `dist[0, count)`. -/
def imageRowCandidates (lanes : Nat) (dist : Nat → F32) (count : Nat) (worst : F32) :
    Nat → BitVec 64 :=
  (List.range ((count + lanes - 1) / lanes)).foldl
    (fun mask k =>
      let i := k * lanes
      let n := min lanes (count - i)
      let word := takenLanes lanes fun j =>
        decide (j < n) && ((dist (i + j)).le worst || !(dist (i + j)).isFiniteBits)
      fun w => if w = i / 64 then mask w ||| word <<< (i % 64) else mask w)
    fun _ => 0#64

namespace ImageScan

variable (s : ImageScan)

def invalidSearch : String := "nss: invalid full-algorithm search configuration"

def unrepresentable : String := "nss: unrepresentable patch distance"

/-- The checks of `image_match`; its pointers are taken to be there. -/
def admits : Bool :=
  ¬(s.frames < 1 ∨ s.frames > 33 ∨ s.nch < 1 ∨ s.nch > 3 ∨ s.t0 < 0 ∨ s.t0 ≥ s.frames ∨
    s.cfg.block < 1 ∨ s.cfg.block > 16 ∨ s.width < s.cfg.block ∨ s.height < s.cfg.block ∨
    s.x0 < 0 ∨ s.x0 > s.width - s.cfg.block ∨ s.y0 < 0 ∨ s.y0 > s.height - s.cfg.block ∨
    s.cfg.group < 1 ∨ s.cfg.group > 256 ∨ s.cfg.window < 1 ∨ s.cfg.window > 129 ∨
    s.cfg.radius < 0 ∨ s.cfg.radius > 16 ∨ s.cfg.psNum < 1 ∨ s.cfg.psNum > s.cfg.group ∨
    s.cfg.psRange < 1 ∨ s.cfg.psRange > 64)

/-- The sum over the channels. -/
def total (t x y : Int) : F32 :=
  (Int.range 0 s.nch).foldl (fun sum c => s.add sum (s.ssd c t x y)) F32.zero

def distance (t x y : Int) : Except String F32 :=
  if (s.total t x y).isFiniteBits then .ok (s.total t x y) else .error unrepresentable

def ordinal (x y : Int) : Nat := ((1 + y * s.width + x) % 2 ^ 32).toNat

def reference : Match := ⟨s.x0, s.y0, s.t0, F32.zero, 0⟩

/-! ## The window of the center frame -/

def lo : Int := s.cfg.window / 2

def hi : Int := s.cfg.window - s.lo - 1

def xlo : Int := max 0 (s.x0 - s.lo)

def xhi : Int := min (s.width - s.cfg.block) (s.x0 + s.hi)

def ylo : Int := max 0 (s.y0 - s.lo)

def yhi : Int := min (s.height - s.cfg.block) (s.y0 + s.hi)

def scanPlace (p : ImageTopK) (y : Int) (storage : List Match) (x : Int) :
    Except String (List Match) :=
  if x = s.x0 ∧ y = s.y0 then return storage
  else do
    let dist ← s.distance s.t0 x y
    return p.add (s.cfg.group - 1) storage ⟨x, y, s.t0, dist, s.ordinal x y⟩

def scanRow (p : ImageTopK) (storage : List Match) (y : Int) : Except String (List Match) :=
  (Int.range s.xlo (s.xhi + 1)).foldlM (s.scanPlace p y) storage

/-- The scan without row kernels. -/
def scan (p : ImageTopK) : Except String (List Match) :=
  (Int.range s.ylo (s.yhi + 1)).foldlM (s.scanRow p) []

def count : Nat := (s.xhi - s.xlo + 1).toNat

/-- The row kernel of a channel. -/
def ssdRow (c y : Int) (out : Nat → F32) : Nat → F32 := fun i =>
  if i < s.count then s.ssd c s.t0 (s.xlo + i) y else out i

def fillRow (y : Int) (b : RowBuffers) : RowBuffers :=
  (Int.range 0 s.nch).foldl
    (fun b c =>
      if c = 0 then { b with dist := s.ssdRow c y b.dist }
      else
        let tmp := s.ssdRow c y b.tmp
        { dist := fun i => if i < s.count then s.add (b.dist i) (tmp i) else b.dist i, tmp := tmp })
    b

def visit (dist : Nat → F32) (y : Int) (storage : List Match) (i : Nat) :
    Except String (List Match) :=
  let x := s.xlo + i
  if x = s.x0 ∧ y = s.y0 then .ok storage
  else if ¬(dist i).isFiniteBits then .error unrepresentable
  else if SortedTopK.full (s.cfg.group - 1) storage ∧
      (SortedTopK.worstDistance storage).lt (dist i) then .ok storage
  else .ok (SortedTopK.add (s.cfg.group - 1) storage ⟨x, y, s.t0, dist i, s.ordinal x y⟩)

/-- A row: all candidates, or those that a full list can still take. -/
def visitRow (lanes : Nat) (dist : Nat → F32) (y : Int) (storage : List Match) :
    Except String (List Match) :=
  if SortedTopK.full (s.cfg.group - 1) storage = false then
    (List.range s.count).foldlM (s.visit dist y) storage
  else
    let take := imageRowCandidates lanes dist s.count (SortedTopK.worstDistance storage)
    (List.range ((s.count + 63) / 64)).foldlM
      (fun storage w => ((setBits 64 (take w)).map (64 * w + ·)).foldlM (s.visit dist y) storage)
      storage

def kernelRow (lanes : Nat) (state : List Match × RowBuffers) (y : Int) :
    Except String (List Match × RowBuffers) := do
  let b := s.fillRow y state.2
  return (← s.visitRow lanes b.dist y state.1, b)

/-- The scan with row kernels. -/
def scanRows (lanes : Nat) : Except String (List Match) := do
  let (storage, _) ← (Int.range s.ylo (s.yhi + 1)).foldlM (s.kernelRow lanes)
    ([], ⟨fun _ => F32.zero, fun _ => F32.zero⟩)
  return storage

def spatial : ImageBuild → Except String (List Match)
  | .generic => s.scan .stable
  | .rows lanes _ => s.scanRows lanes

/-! ## The walk in time -/

/-- The windows around the centers of a layer. -/
def windows (centers : List Match) : Windows where
  maxX := s.width - s.cfg.block
  maxY := s.height - s.cfg.block
  range := s.cfg.psRange
  centers := centers

def layer (p : ImageTopK) (t : Int) (centers : List Match) : Except String (List Match) := do
  let next ← ((s.windows centers).layerVisits s.height).foldlM
    (fun next q => do
      let dist ← s.distance t q.1 q.2
      return p.add s.cfg.psNum next ⟨q.1, q.2, t, dist, s.ordinal q.1 q.2⟩)
    []
  return p.finish s.cfg.psNum next

/-- The walk of one side over the steps `delta`; `global` is the storage of the group. -/
def walk (p : ImageTopK) (direction : Int) :
    List Int → List Match → List Match → Except String (List Match)
  | [], _, global => return global
  | delta :: steps, centers, global =>
    let t := s.t0 + direction * delta
    if t < 0 ∨ t ≥ s.frames then return global
    else do
      let local_ ← s.layer p t centers
      let global := local_.foldl (p.add (s.cfg.group - 1)) global
      if local_.length = 0 then return global else walk p direction steps local_ global

def imageMatch (build : ImageBuild) : Except String (List Match) :=
  let p := build.topK
  if ¬s.admits then .error invalidSearch
  else if s.cfg.group = 1 then .ok [s.reference]
  else do
    let storage ← s.spatial build
    let found := s.reference :: p.finish (s.cfg.group - 1) storage
    if s.cfg.radius = 0 ∨ s.frames = 1 then return found
    else
      let seeds := found.take (min (found.length : Int) s.cfg.psNum).toNat
      let steps := Int.range 1 (s.cfg.radius + 1)
      let global := found.tail.foldl (p.add (s.cfg.group - 1)) []
      let global ← s.walk p (-1) steps seeds global
      let global ← s.walk p 1 steps seeds global
      return s.reference :: p.finish (s.cfg.group - 1) global

/-! ## What the search is to find -/

/-- The places of the window, without the reference. -/
def spatialPlaces : List (Int × Int) :=
  ((Int.range s.ylo (s.yhi + 1)).flatMap fun y =>
    (Int.range s.xlo (s.xhi + 1)).map fun x => (x, y)).filter fun p => ¬(p.1 = s.x0 ∧ p.2 = s.y0)

/-- The walk without its storage. -/
def layers : Layers where
  maxX := s.width - s.cfg.block
  maxY := s.height - s.cfg.block
  range := s.cfg.psRange
  t0 := s.t0
  first := 0
  last := s.frames
  radius := s.cfg.radius
  capacity := s.cfg.psNum
  candidate := fun t _ p => ⟨p.1, p.2, t, s.total t p.1 p.2, s.ordinal p.1 p.2⟩
  coord_candidate := fun _ _ _ => rfl

def spatialCandidates : List Match := s.layers.candidates s.t0 s.spatialPlaces

/-- The matches that seed both sides. -/
def seeds : List Match :=
  (s.reference :: best (s.cfg.group - 1) s.spatialCandidates).take s.cfg.psNum.toNat

/-- Every place of which the distance is needed. -/
def visited : List (Int × Int × Int) :=
  s.spatialPlaces.map (fun p => (s.t0, p)) ++
    (s.layers.visitsFrom (-1) s.seeds 1 ++ s.layers.visitsFrom 1 s.seeds 1)

def Representable (p : Int × Int × Int) : Prop := (s.total p.1 p.2.1 p.2.2).isFiniteBits = true

instance (p : Int × Int × Int) : Decidable (s.Representable p) := by
  unfold Representable
  infer_instance

def AllRepresentable (visits : List (Int × Int × Int)) : Prop := ∀ q ∈ visits, s.Representable q

instance (visits : List (Int × Int × Int)) : Decidable (s.AllRepresentable visits) := by
  unfold AllRepresentable
  infer_instance

/-- What `image_match` is to return. -/
def found : Except String (List Match) :=
  if ¬s.admits then .error invalidSearch
  else if s.cfg.group = 1 then .ok [s.reference]
  else if s.AllRepresentable s.visited then
    .ok (s.reference :: best (s.cfg.group - 1) (s.spatialCandidates ++
      (s.layers.side (-1) s.seeds ++ s.layers.side 1 s.seeds)))
  else .error unrepresentable

/-! ## Visits of places -/

variable {s} {t x y : Int} {p : ImageTopK} {storage : List Match} {places : List (Int × Int)}

theorem allRepresentable_append {visits visits' : List (Int × Int × Int)} :
    s.AllRepresentable (visits ++ visits') ↔
      s.AllRepresentable visits ∧ s.AllRepresentable visits' := List.forall_mem_append

theorem candidates_eq : s.layers.candidates t places =
    places.map fun q => ⟨q.1, q.2, t, s.total t q.1 q.2, s.ordinal q.1 q.2⟩ := by
  have hfst : places.zipIdx.map Prod.fst = places := List.zipIdx_map_fst _ _
  nth_rewrite 2 [← hfst]
  rw [List.map_map]
  rfl

/-- A loop over places adds their candidates, or fails at the first that is not representable. -/
theorem visit_places {capacity : Int} :
    places.foldlM (fun storage q => do
      let dist ← s.distance t q.1 q.2
      return p.add capacity storage ⟨q.1, q.2, t, dist, s.ordinal q.1 q.2⟩) storage =
    if ∀ q ∈ places, s.Representable (t, q) then
      .ok ((s.layers.candidates t places).foldl (p.add capacity) storage)
    else .error unrepresentable := by
  rw [candidates_eq, List.foldl_map, ← foldlM_check]
  congr 1
  funext storage q
  by_cases hrep : s.Representable (t, q)
  · have hdist : s.distance t q.1 q.2 = .ok (s.total t q.1 q.2) := if_pos hrep
    rw [if_pos hrep, hdist]
    rfl
  · have hdist : s.distance t q.1 q.2 = .error unrepresentable := if_neg hrep
    rw [if_neg hrep, hdist]
    rfl

/-- The places of a row of the window, without the reference. -/
def rowPlaces (s : ImageScan) (y : Int) : List (Int × Int) :=
  ((Int.range s.xlo (s.xhi + 1)).map fun x => (x, y)).filter fun p => ¬(p.1 = s.x0 ∧ p.2 = s.y0)

theorem spatialPlaces_eq :
    s.spatialPlaces = (Int.range s.ylo (s.yhi + 1)).flatMap s.rowPlaces := by
  rw [spatialPlaces, List.filter_flatMap]
  rfl

theorem scanRow_places : s.scanRow p storage y = (s.rowPlaces y).foldlM (fun storage q => do
    let dist ← s.distance s.t0 q.1 q.2
    return p.add (s.cfg.group - 1) storage ⟨q.1, q.2, s.t0, dist, s.ordinal q.1 q.2⟩) storage := by
  rw [scanRow, rowPlaces, List.foldlM_filter, List.foldlM_map]
  congr 1
  funext storage x
  unfold scanPlace
  by_cases href : x = s.x0 ∧ y = s.y0
  · simp [href]
  · simp [href]

theorem scanRow_eq : s.scanRow p storage y =
    if ∀ q ∈ s.rowPlaces y, s.Representable (s.t0, q) then
      .ok ((s.layers.candidates s.t0 (s.rowPlaces y)).foldl (p.add (s.cfg.group - 1)) storage)
    else .error unrepresentable :=
  scanRow_places.trans visit_places

theorem scan_eq : s.scan p =
    if ∀ q ∈ s.spatialPlaces, s.Representable (s.t0, q) then
      .ok (s.spatialCandidates.foldl (p.add (s.cfg.group - 1)) [])
    else .error unrepresentable := by
  rw [spatialCandidates, ← visit_places, spatialPlaces_eq, ← foldlM_flatMap]
  unfold scan
  congr 1
  funext storage y
  exact scanRow_places

end ImageScan

/-! ## The candidates of a row -/

theorem getLsbD_takenLanes {lanes j : Nat} {take : Nat → Bool} :
    (takenLanes lanes take).getLsbD j = (decide (j < 64 ∧ j < lanes) && take j) := by
  unfold takenLanes
  rw [BitVec.getLsbD_setWidth, BitVec.getLsbD_ofBoolListLE]
  by_cases hj : j < lanes
  · simp [hj]
  · simp [hj]

/-- A candidate that a full list can still take, or that the scan reports. -/
def Taken (dist : Nat → F32) (worst : F32) (i : Nat) : Bool :=
  (dist i).le worst || !(dist i).isFiniteBits

variable {lanes count : Nat} {dist : Nat → F32} {worst : F32}

/-- After some vectors the mask has the taken candidates before them. -/
theorem imageRowCandidates_prefix (hlanes : lanes ∣ 64) (n w b : Nat) :
    (((List.range n).foldl
      (fun (mask : Nat → BitVec 64) k =>
        let i := k * lanes
        let n := min lanes (count - i)
        let word := takenLanes lanes fun j =>
          decide (j < n) && ((dist (i + j)).le worst || !(dist (i + j)).isFiniteBits)
        fun w => if w = i / 64 then mask w ||| word <<< (i % 64) else mask w)
      fun _ => 0#64) w).getLsbD b =
      (decide (b < 64 ∧ 64 * w + b < n * lanes ∧ 64 * w + b < count) &&
        Taken dist worst (64 * w + b)) := by
  induction n with
  | zero => simp
  | succ n ih =>
    obtain ⟨c, hc⟩ := hlanes
    have hpos : 0 < lanes := Nat.pos_of_ne_zero fun h => by simp [h] at hc
    -- a vector does not cross the words
    have hfit : n * lanes % 64 + lanes ≤ 64 := by
      have hlt : n % c < c := Nat.mod_lt _ (Nat.pos_of_ne_zero fun h => by simp [h] at hc)
      have hmod : n * lanes % 64 = n % c * lanes := by
        rw [hc, Nat.mul_comm lanes c, Nat.mul_mod_mul_right]
      calc n * lanes % 64 + lanes = (n % c + 1) * lanes := by rw [hmod, Nat.succ_mul]
        _ ≤ c * lanes := Nat.mul_le_mul_right lanes hlt
        _ = 64 := by rw [Nat.mul_comm, ← hc]
    have hnext : (n + 1) * lanes = n * lanes + lanes := Nat.succ_mul n lanes
    rw [List.range_succ, List.foldl_append, List.foldl_cons, List.foldl_nil]
    dsimp only
    generalize n * lanes = i at *
    by_cases hw : w = i / 64
    · rw [if_pos hw, BitVec.getLsbD_or, ih, BitVec.getLsbD_shiftLeft, getLsbD_takenLanes, hnext]
      by_cases hb : b < i % 64
      · have hbefore : 64 * w + b < i := by omega
        have hiff : (b < 64 ∧ 64 * w + b < i + lanes ∧ 64 * w + b < count) ↔
            b < 64 ∧ 64 * w + b < i ∧ 64 * w + b < count := by omega
        simp [hb, hiff]
      · have hafter : ¬64 * w + b < i := by omega
        have hplace : i + (b - i % 64) = 64 * w + b := by omega
        have hiff : (b < 64 ∧ (b - i % 64 < 64 ∧ b - i % 64 < lanes) ∧
            b - i % 64 < min lanes (count - i)) ↔
            b < 64 ∧ 64 * w + b < i + lanes ∧ 64 * w + b < count := by omega
        rw [hplace, ← Taken]
        simp [hb, hafter, ← hiff, Bool.and_assoc]
    · rw [if_neg hw, ih, hnext]
      have hiff : (b < 64 ∧ 64 * w + b < i ∧ 64 * w + b < count) ↔
          b < 64 ∧ 64 * w + b < i + lanes ∧ 64 * w + b < count := by omega
      simp only [hiff]

/-- The words of the mask visit the taken candidates in order. -/
theorem imageRowCandidates_visits (hlanes : lanes ∣ 64) :
    ((List.range ((count + 63) / 64)).flatMap fun w =>
      (setBits 64 (imageRowCandidates lanes dist count worst w)).map (64 * w + ·)) =
    (List.range count).filter (Taken dist worst) := by
  have hpos : 0 < lanes := Nat.pos_of_ne_zero fun h => by simp [h] at hlanes
  have hbit : ∀ w b, (imageRowCandidates lanes dist count worst w).getLsbD b =
      (decide (b < 64 ∧ 64 * w + b < count) && Taken dist worst (64 * w + b)) := by
    intro w b
    have hall : count ≤ (count + lanes - 1) / lanes * lanes := by
      have hdiv := Nat.div_add_mod (count + lanes - 1) lanes
      have hmod := Nat.mod_lt (count + lanes - 1) hpos
      rw [Nat.mul_comm] at hdiv
      omega
    have hiff : (b < 64 ∧ 64 * w + b < (count + lanes - 1) / lanes * lanes ∧
        64 * w + b < count) ↔ b < 64 ∧ 64 * w + b < count := by omega
    rw [imageRowCandidates, imageRowCandidates_prefix hlanes]
    simp only [hiff]
  simp only [setBits_eq]
  apply eq_of_increasing
  · apply List.pairwise_flatMap.mpr
    constructor
    · intro w _
      rw [List.pairwise_map]
      exact (List.pairwise_lt_range.filter _).imp fun hlt => by omega
    · apply List.pairwise_lt_range.imp
      intro w w' hlt i hi i' hi'
      obtain ⟨b, hb, rfl⟩ := List.mem_map.mp hi
      obtain ⟨b', -, rfl⟩ := List.mem_map.mp hi'
      have hb := List.mem_range.mp (List.mem_filter.mp hb).1
      omega
  · exact List.pairwise_lt_range.filter _
  · intro i
    simp only [List.mem_flatMap, List.mem_map, List.mem_filter, List.mem_range, hbit,
      Bool.and_eq_true, decide_eq_true_eq]
    constructor
    · rintro ⟨w, -, b, ⟨-, ⟨-, hlt⟩, htaken⟩, rfl⟩
      exact ⟨hlt, htaken⟩
    · rintro ⟨hlt, htaken⟩
      have hplace : 64 * (i / 64) + i % 64 = i := Nat.div_add_mod i 64
      refine ⟨i / 64, by omega, i % 64, ?_, hplace⟩
      rw [hplace]
      exact ⟨by omega, ⟨by omega, hlt⟩, htaken⟩

/-! ## The early reject -/

variable {capacity : Int} {storage : List Match} {m x : Match}

/-- The distances of a storage are finite. -/
def AllFinite (storage : List Match) : Prop := ∀ m ∈ storage, m.dist.isFiniteBits = true

namespace SortedTopK

theorem mem_shift {pos : Nat} (h : m ∈ shift x pos storage) : m ∈ storage ∨ m = x := by
  induction pos generalizing storage with
  | zero => exact List.mem_or_eq_of_mem_set h
  | succ pos ih =>
    rw [shift] at h
    split at h
    · next below hbelow =>
      have hmem := List.mem_of_getElem? hbelow
      split at h
      · rcases ih h with h | h
        · rcases List.mem_or_eq_of_mem_set h with h | rfl
          · exact .inl h
          · exact .inl hmem
        · exact .inr h
      · exact List.mem_or_eq_of_mem_set h
    · exact .inl h

theorem length_shift {pos : Nat} : (shift x pos storage).length = storage.length := by
  induction pos generalizing storage with
  | zero => exact List.length_set
  | succ pos ih =>
    rw [shift]
    split
    · split
      · rw [ih, List.length_set]
      · exact List.length_set
    · rfl

theorem mem_add (h : m ∈ add capacity storage x) : m ∈ storage ∨ m = x := by
  unfold add at h
  split at h
  · exact .inl h
  split at h
  · have hgrow : m ∈ storage ++ [x] := by
      split at h
      · rw [sortMatches_eq] at h
        exact (sortBy_perm rank _).mem_iff.mp h
      · exact h
    simpa using hgrow
  · split at h
    · split at h
      · exact mem_shift h
      · exact .inl h
    · exact .inl h

theorem full_iff : full capacity storage = true ↔
    0 < capacity ∧ (storage.length : Int) = capacity := decide_eq_true_iff

/-- A full storage stays full. -/
theorem full_add (h : full capacity storage = true) :
    full capacity (add capacity storage x) = true := by
  obtain ⟨hpos, hlen⟩ := full_iff.mp h
  have hsame : (add capacity storage x).length = storage.length := by
    unfold add
    rw [if_neg (by omega), if_neg (by omega)]
    split
    · split
      · exact length_shift
      · rfl
    · rfl
  rw [full_iff, hsame]
  exact ⟨hpos, hlen⟩

/-- The worst element of a full storage. -/
theorem exists_worst (h : full capacity storage = true) :
    ∃ last, storage[storage.length - 1]? = some last ∧ worstDistance storage = last.dist := by
  obtain ⟨hpos, hlen⟩ := full_iff.mp h
  have hlast : storage[storage.length - 1]? = some storage[storage.length - 1] :=
    List.getElem?_eq_getElem (by omega)
  refine ⟨_, hlast, ?_⟩
  rw [worstDistance, hlast]

theorem worstDistance_mem (h : full capacity storage = true) :
    ∃ last ∈ storage, worstDistance storage = last.dist := by
  obtain ⟨last, hlast, hworst⟩ := exists_worst h
  exact ⟨last, List.mem_of_getElem? hlast, hworst⟩

/-- What is farther than the worst distance is what `add` rejects. -/
theorem add_farther (h : full capacity storage = true) (hfinite : AllFinite storage)
    (hx : x.dist.isFiniteBits = true) (hlt : (worstDistance storage).lt x.dist = true) :
    add capacity storage x = storage := by
  obtain ⟨hpos, hlen⟩ := full_iff.mp h
  obtain ⟨last, hlast, hworst⟩ := exists_worst h
  have hlastFinite := hfinite last (List.mem_of_getElem? hlast)
  rw [hworst, F32.lt_iff hlastFinite hx] at hlt
  have hless : matchLess x last = false := matchLess_false_iff.mpr
    (le_of_lt (matchLess_iff.mp (matchLess_of_value_lt hlastFinite hx hlt)))
  unfold add
  rw [if_neg (by omega), if_neg (by omega), hlast]
  simp [hless]

/-- In a full sorted storage no distance exceeds the worst one. -/
theorem Holds.le_worst {seen : List Match} (h : Holds capacity seen storage)
    (hfull : full capacity storage = true) (hfinite : AllFinite storage) (hm : m ∈ storage) :
    m.dist.value ≤ (worstDistance storage).value := by
  obtain ⟨hpos, hlen⟩ := full_iff.mp hfull
  obtain ⟨last, hlast, hworst⟩ := exists_worst hfull
  have hsorted := h.sorted (by omega)
  have hrank : m.rank ≤ last.rank := by
    obtain ⟨i, hi⟩ := List.mem_iff_getElem?.mp hm
    obtain ⟨hi', rfl⟩ := List.getElem?_eq_some_iff.mp hi
    obtain ⟨hl', rfl⟩ := List.getElem?_eq_some_iff.mp hlast
    rcases Nat.lt_or_ge i (storage.length - 1) with hlt | hge
    · exact le_of_lt (List.pairwise_iff_getElem.mp hsorted _ _ hi' hl' hlt)
    · have heq : i = storage.length - 1 := by omega
      simp only [heq, le_refl]
  rw [hworst]
  by_contra hgt
  have hless : matchLess last m = true := matchLess_of_value_lt
    (hfinite last (List.mem_of_getElem? hlast)) (hfinite m hm) (by omega)
  exact absurd (matchLess_iff.mp hless) (not_lt.mpr hrank)

end SortedTopK

namespace ImageScan

variable {s : ImageScan} {y : Int}

/-- The channels after the first are added in turn. -/
theorem fillRow_channels {cs : List Int} {b : RowBuffers} {i : Nat} (hi : i < s.count)
    (hcs : ∀ c ∈ cs, c ≠ 0) :
    (cs.foldl
      (fun b c =>
        if c = 0 then { b with dist := s.ssdRow c y b.dist }
        else
          let tmp := s.ssdRow c y b.tmp
          { dist := fun i => if i < s.count then s.add (b.dist i) (tmp i) else b.dist i, tmp := tmp })
      b).dist i =
      cs.foldl (fun sum c => s.add sum (s.ssd c s.t0 (s.xlo + i) y)) (b.dist i) := by
  induction cs generalizing b with
  | nil => rfl
  | cons c cs ih =>
    rw [List.foldl_cons, List.foldl_cons, ih fun c hc => hcs c (List.mem_cons_of_mem _ hc),
      if_neg (hcs c List.mem_cons_self)]
    simp [hi, ssdRow]

/-- The rows of distances are the sums over the channels. -/
theorem fillRow_dist (hnch : 1 ≤ s.nch) {b : RowBuffers} {i : Nat} (hi : i < s.count) :
    (s.fillRow y b).dist i = s.total s.t0 (s.xlo + i) y := by
  have hrest : ∀ c ∈ Int.range (0 + 1) s.nch, c ≠ 0 := by
    intro c hc
    have := Int.mem_range_iff.mp hc
    omega
  have hfirst : s.ssdRow 0 y b.dist i = s.ssd 0 s.t0 (s.xlo + i) y := if_pos hi
  rw [fillRow, total, range_cons (by omega), List.foldl_cons, List.foldl_cons, if_pos rfl,
    fillRow_channels hi hrest, s.zero_add, ← hfirst]

/-- What the scan of a place makes of a storage: nothing, or it adds a finite distance. -/
theorem scanPlace_ok {p : ImageTopK} {storage storage' : List Match} {x : Int}
    (h : s.scanPlace p y storage x = .ok storage') : storage' = storage ∨
      (s.total s.t0 x y).isFiniteBits = true ∧ storage' = p.add (s.cfg.group - 1) storage
        ⟨x, y, s.t0, s.total s.t0 x y, s.ordinal x y⟩ := by
  unfold scanPlace distance at h
  split at h
  · cases h
    exact .inl rfl
  · split at h
    · next hdist =>
      cases h
      exact .inr ⟨hdist, rfl⟩
    · exact absurd h nofun

/-- A finite storage stays finite. -/
theorem scanPlace_finite {storage storage' : List Match} {x : Int} (hfinite : AllFinite storage)
    (h : s.scanPlace .sorted y storage x = .ok storage') : AllFinite storage' := by
  rcases scanPlace_ok h with rfl | ⟨hdist, rfl⟩
  · exact hfinite
  · intro m hm
    rcases SortedTopK.mem_add hm with hm | rfl
    · exact hfinite m hm
    · exact hdist

/-- A visit is the scan of its place: the early reject leaves out what `add` would. -/
theorem visit_eq {dist : Nat → F32} {storage : List Match} {i : Nat}
    (hdist : dist i = s.total s.t0 (s.xlo + i) y) (hfinite : AllFinite storage) :
    s.visit dist y storage i = s.scanPlace .sorted y storage (s.xlo + i) := by
  unfold visit scanPlace distance
  dsimp only
  rw [← hdist]
  by_cases href : s.xlo + i = s.x0 ∧ y = s.y0
  · rw [if_pos href, if_pos href]
    rfl
  · rw [if_neg href, if_neg href]
    by_cases hi : (dist i).isFiniteBits = true
    · rw [if_neg (not_not.mpr hi), if_pos hi]
      split
      · next hreject =>
        have hsame := SortedTopK.add_farther (x := ⟨s.xlo + i, y, s.t0, dist i,
          s.ordinal (s.xlo + i) y⟩) hreject.1 hfinite hi hreject.2
        exact congrArg Except.ok hsame.symm
      · rfl
    · rw [if_pos hi, if_neg hi]
      rfl

/-- A candidate that is not taken is finite and farther than the worst distance, which only
falls. -/
theorem visit_untaken {dist : Nat → F32} {storage : List Match} {i : Nat} {worst : F32}
    (hfull : SortedTopK.full (s.cfg.group - 1) storage = true) (hfinite : AllFinite storage)
    (hworst : worst.isFiniteBits = true) (hle : ∀ m ∈ storage, m.dist.value ≤ worst.value)
    (h : ¬Taken dist worst i = true) : s.visit dist y storage i = .ok storage := by
  rw [Taken, Bool.or_eq_true, not_or, Bool.not_eq_true', Bool.not_eq_false] at h
  obtain ⟨hgt, hi⟩ := h
  rw [F32.le_iff hi hworst] at hgt
  obtain ⟨last, hlast, heq⟩ := SortedTopK.worstDistance_mem hfull
  have hlt : (SortedTopK.worstDistance storage).lt (dist i) = true := by
    rw [heq, F32.lt_iff (hfinite last hlast) hi]
    have := hle last hlast
    omega
  unfold visit
  dsimp only
  by_cases href : s.xlo + i = s.x0 ∧ y = s.y0
  · rw [if_pos href]
  · rw [if_neg href, if_neg (not_not.mpr hi), if_pos ⟨hfull, hlt⟩]

theorem scanRow_range {p : ImageTopK} {storage : List Match} : s.scanRow p storage y =
    (List.range s.count).foldlM (fun storage (i : Nat) => s.scanPlace p y storage (s.xlo + i))
      storage := by
  have hcount : (s.xhi + 1 - s.xlo).toNat = s.count := by
    unfold count
    omega
  rw [scanRow, Int.range, List.foldlM_map, hcount]

/-- A row visits all its candidates while there is room, and then those that can still be
taken: either way it is the scan of the row. -/
theorem visitRow_eq {lanes : Nat} {dist : Nat → F32} {seen storage : List Match}
    (hlanes : lanes ∣ 64) (hdist : ∀ i < s.count, dist i = s.total s.t0 (s.xlo + i) y)
    (hholds : SortedTopK.Holds (s.cfg.group - 1) seen storage) (hfinite : AllFinite storage) :
    s.visitRow lanes dist y storage = s.scanRow .sorted storage y := by
  have hrange : ∀ {done rest i}, List.range s.count = done ++ i :: rest → i < s.count := by
    intro done rest i hsplit
    have hmem : i ∈ List.range s.count := by rw [hsplit]; simp
    exact List.mem_range.mp hmem
  rw [scanRow_range]
  unfold visitRow
  split
  · -- while there is room
    apply foldlM_agree (fun _ st => AllFinite st) hfinite
    · exact fun done i rest st hsplit hst => visit_eq (hdist i (hrange hsplit)) hst
    · exact fun done i rest st st' _ hst hok => scanPlace_finite hst hok
  · next hfull =>
    have hfull : SortedTopK.full (s.cfg.group - 1) storage = true := by simpa using hfull
    obtain ⟨last, hlast, hworst⟩ := SortedTopK.worstDistance_mem hfull
    have hbound : ∀ m ∈ storage, m.dist.value ≤ last.dist.value := by
      intro m hm
      rw [← hworst]
      exact hholds.le_worst hfull hfinite hm
    have hlastFinite := hfinite last hlast
    dsimp only
    rw [foldlM_flatMap, imageRowCandidates_visits hlanes, List.foldlM_filter, hworst]
    -- the worst distance only falls
    apply foldlM_agree (fun _ st => AllFinite st ∧
      SortedTopK.full (s.cfg.group - 1) st = true ∧ ∀ m ∈ st, m.dist.value ≤ last.dist.value)
      ⟨hfinite, hfull, hbound⟩
    · intro done i rest st hsplit ⟨hst, hstFull, hle⟩
      have hi := hdist i (hrange hsplit)
      rw [← visit_eq hi hst]
      split
      · rfl
      · next htaken => exact (visit_untaken hstFull hst hlastFinite hle htaken).symm
    · intro done i rest st st' hsplit ⟨hst, hstFull, hle⟩ hok
      have hi := hdist i (hrange hsplit)
      by_cases htaken : Taken dist last.dist i = true
      · rcases scanPlace_ok hok with rfl | ⟨hfin, rfl⟩
        · exact ⟨hst, hstFull, hle⟩
        · refine ⟨scanPlace_finite hst hok, SortedTopK.full_add hstFull, fun m hm => ?_⟩
          rcases SortedTopK.mem_add hm with hm | rfl
          · exact hle m hm
          · rw [Taken, hi, hfin, Bool.not_true, Bool.or_false,
              F32.le_iff hfin hlastFinite] at htaken
            exact htaken
      · rw [← visit_eq hi hst, visit_untaken hstFull hst hlastFinite hle htaken] at hok
        cases hok
        exact ⟨hst, hstFull, hle⟩

/-! ## The whole window -/

theorem spatialPlaces_nodup : s.spatialPlaces.Nodup := by
  apply List.Nodup.filter
  exact raster_nodup (range_nodup _ _)

theorem spatialCandidates_nodup : (s.spatialCandidates.map coord).Nodup :=
  Layers.candidates_nodup spatialPlaces_nodup

/-- The rows with row kernels are those of the scan. -/
theorem kernelRows_eq {lanes : Nat} (hlanes : lanes ∣ 64) (hnch : 1 ≤ s.nch) {ys : List Int}
    {seen storage : List Match} {b : RowBuffers}
    (hnd : ((seen ++ ys.flatMap fun y => s.layers.candidates s.t0 (s.rowPlaces y)).map rank).Nodup)
    (hholds : SortedTopK.Holds (s.cfg.group - 1) seen storage) (hfinite : AllFinite seen) :
    (do
      let (storage, _) ← ys.foldlM (s.kernelRow lanes) (storage, b)
      return storage) = ys.foldlM (s.scanRow .sorted) storage := by
  induction ys generalizing seen storage b with
  | nil => rfl
  | cons y ys ih =>
    have hrow : s.visitRow lanes (s.fillRow y b).dist y storage = s.scanRow .sorted storage y :=
      visitRow_eq hlanes (fun i hi => fillRow_dist hnch hi) hholds
        fun m hm => hfinite m (hholds.least.subset hm)
    rw [List.foldlM_cons, List.foldlM_cons, kernelRow, hrow]
    cases hscan : s.scanRow .sorted storage y with
    | error e => rfl
    | ok storage' =>
      rw [List.flatMap_cons, ← List.append_assoc] at hnd
      rw [scanRow_eq] at hscan
      split at hscan
      · next hrep =>
        cases hscan
        have hseen : ((seen ++ s.layers.candidates s.t0 (s.rowPlaces y)).map rank).Nodup := by
          rw [List.map_append] at hnd
          exact hnd.of_append_left
        apply ih hnd (ImageTopK.sorted.holds_foldl hseen hholds)
        intro m hm
        rcases List.mem_append.mp hm with hm | hm
        · exact hfinite m hm
        · rw [candidates_eq] at hm
          obtain ⟨q, hq, rfl⟩ := List.mem_map.mp hm
          exact hrep q hq
      · exact absurd hscan nofun

theorem scanRows_eq {lanes : Nat} (hlanes : lanes ∣ 64) (hnch : 1 ≤ s.nch) :
    s.scanRows lanes = s.scan .sorted := by
  have hnd := rank_nodup (spatialCandidates_nodup (s := s))
  rw [spatialCandidates, candidates_eq, spatialPlaces_eq, List.map_flatMap] at hnd
  apply @kernelRows_eq s lanes hlanes hnch _ [] []
  · simp only [candidates_eq]
    exact hnd
  · exact SortedTopK.Holds.nil
  · exact nofun

/-- Both builds find the best of the window, or fail. -/
theorem spatial_eq (hnch : 1 ≤ s.nch) (build : ImageBuild) :
    (do
      let storage ← s.spatial build
      return build.topK.finish (s.cfg.group - 1) storage) =
    if ∀ q ∈ s.spatialPlaces, s.Representable (s.t0, q) then
      .ok (best (s.cfg.group - 1) s.spatialCandidates)
    else .error unrepresentable := by
  have hscan : s.spatial build = s.scan build.topK := by
    cases build with
    | generic => rfl
    | rows lanes hlanes => exact scanRows_eq hlanes hnch
  rw [hscan, scan_eq, ← build.topK.run (rank_nodup spatialCandidates_nodup)]
  split
  · rfl
  · rfl

/-! ## The walk -/

variable {p : ImageTopK} {t direction : Int} {centers seeds global : List Match} {k : Nat}

/-- A layer finds the best of the union of its windows, or fails. -/
theorem layer_eq (hheight : 0 ≤ s.height) (hblock : s.cfg.block ≤ s.height) :
    s.layer p t centers =
    if ∀ q ∈ (s.windows centers).union, s.Representable (t, q) then
      .ok (best s.cfg.psNum (s.layers.candidates t (s.windows centers).union))
    else .error unrepresentable := by
  have hvisits : (s.windows centers).layerVisits s.height = (s.windows centers).union :=
    Windows.layerVisits_eq hheight (by simp only [windows]; omega)
  have hnd := rank_nodup (Layers.candidates_nodup (s := s.layers) (t := t)
    (Windows.union_nodup (w := s.windows centers)))
  rw [layer, hvisits, visit_places, ← p.run hnd]
  split
  · rfl
  · rfl

/-- The walk of a side adds what its valid frames hold, or fails. -/
theorem walk_eq (hheight : 0 ≤ s.height) (hblock : s.cfg.block ≤ s.height)
    (hdirection : direction = -1 ∨ direction = 1) (ht0 : s.layers.valid s.t0) :
    s.walk p direction (Int.range (k + 1) (s.cfg.radius + 1)) (s.layers.nearest direction seeds k)
      global =
    if s.AllRepresentable (s.layers.visitsFrom direction seeds (k + 1)) then
      .ok ((s.layers.sideFrom direction seeds (k + 1)).foldl (p.add (s.cfg.group - 1)) global)
    else .error unrepresentable := by
  induction hn : (s.cfg.radius - k).toNat generalizing k global with
  | zero =>
    have hend : s.layers.radius < (k : Int) + 1 := by
      simp only [layers]
      omega
    have hside : s.layers.sideFrom direction seeds (k + 1) = [] := Layers.outward_end hend
    have hvisits : s.layers.visitsFrom direction seeds (k + 1) = [] := Layers.outward_end hend
    rw [hside, hvisits, range_empty (by omega)]
    rfl
  | succ n ih =>
    rw [range_cons (by omega), walk]
    dsimp only
    split
    · next hout =>
      have hinvalid : ¬s.layers.valid (s.layers.t0 + direction * (k + 1)) := by
        simp only [Layers.valid, layers]
        omega
      have hside : s.layers.sideFrom direction seeds (k + 1) = [] :=
        Layers.outward_invalid hdirection ht0 (by omega) hinvalid
      have hvisits : s.layers.visitsFrom direction seeds (k + 1) = [] :=
        Layers.outward_invalid hdirection ht0 (by omega) hinvalid
      rw [hside, hvisits]
      rfl
    · next hin =>
      have hvalid : s.layers.valid (s.layers.t0 + direction * (k + 1)) := by
        simp only [Layers.valid, layers]
        omega
      have hradius : (k : Int) + 1 ≤ s.layers.radius := by
        simp only [layers]
        omega
      have hside : s.layers.sideFrom direction seeds (k + 1) =
          s.layers.nearest direction seeds (k + 1) ++
            s.layers.sideFrom direction seeds (k + 1 + 1) := Layers.outward_valid hradius hvalid
      have hvisits : s.layers.visitsFrom direction seeds (k + 1) =
          s.layers.visitsAt direction seeds (k + 1) ++
            s.layers.visitsFrom direction seeds (k + 1 + 1) := Layers.outward_valid hradius hvalid
      have hlayer := @layer_eq s p (s.t0 + direction * (k + 1))
        (s.layers.nearest direction seeds k) hheight hblock
      by_cases hrep : ∀ q ∈ (s.windows (s.layers.nearest direction seeds k)).union,
          s.Representable (s.t0 + direction * (k + 1), q)
      · have hfound : s.layer p (s.t0 + direction * (k + 1)) (s.layers.nearest direction seeds k) =
            .ok (s.layers.nearest direction seeds (k + 1)) := by
          rw [hlayer, if_pos hrep]
          rfl
        have hat : s.AllRepresentable (s.layers.visitsAt direction seeds (k + 1)) := by
          intro q hq
          obtain ⟨ht, hp⟩ := Layers.mem_visitsAt.mp hq
          have hq := hrep q.2 hp
          rwa [show (s.t0 + direction * (k + 1), q.2) = q from Prod.ext ht.symm rfl] at hq
        have hrest := @ih ((s.layers.nearest direction seeds (k + 1)).foldl
          (p.add (s.cfg.group - 1)) global) (k + 1) (by omega)
        push_cast at hrest
        rw [hfound, hside, List.foldl_append]
        simp only [hvisits, allRepresentable_append, hat, true_and]
        by_cases hempty : (s.layers.nearest direction seeds (k + 1)).length = 0
        · -- an empty layer ends the walk: the farther ones are empty too
          have hnil := List.length_eq_zero_iff.mp hempty
          have hfar : s.layers.visitsFrom direction seeds (k + 1 + 1) = [] :=
            Layers.visitsFrom_nil (by push_cast; omega) hnil
          have hside' : s.layers.sideFrom direction seeds (k + 1 + 1) = [] :=
            Layers.sideFrom_nil (by push_cast; omega) hnil
          rw [hfar, hside']
          exact if_pos hempty
        · exact (if_neg hempty).trans hrest
      · have hfail : ¬s.AllRepresentable (s.layers.visitsFrom direction seeds (k + 1)) := by
          intro h
          rw [hvisits, allRepresentable_append] at h
          exact hrep fun q hq => h.1 _ (Layers.mem_visitsAt.mpr ⟨rfl, hq⟩)
        rw [hlayer, if_neg hrep, if_neg hfail]
        rfl

/-! ## The search -/

theorem admits_iff (h : s.admits = true) : 1 ≤ s.nch ∧ 0 ≤ s.height ∧ s.cfg.block ≤ s.height ∧
    s.layers.valid s.t0 := by
  unfold admits at h
  simp only [decide_eq_true_eq, not_or] at h
  simp only [Layers.valid, layers]
  omega

/-- Without frames to walk to nothing is found outside the center frame. -/
theorem no_walk (seeds : List Match) (h : s.cfg.radius = 0 ∨ s.frames = 1)
    (hdirection : direction = -1 ∨ direction = 1) (ht0 : s.layers.valid s.t0) :
    s.layers.side direction seeds = [] ∧ s.layers.visitsFrom direction seeds 1 = [] := by
  rcases h with h | h
  · have hend : s.layers.radius < 1 := by
      simp only [layers]
      omega
    exact ⟨Layers.outward_end hend, Layers.outward_end hend⟩
  · have hinvalid : ¬s.layers.valid (s.layers.t0 + direction * 1) := by
      simp only [Layers.valid, layers] at ht0 ⊢
      rcases hdirection with rfl | rfl <;> omega
    exact ⟨Layers.outward_invalid hdirection ht0 (by omega) hinvalid,
      Layers.outward_invalid hdirection ht0 (by omega) hinvalid⟩

/-- What the window and both sides hold is of different places. -/
theorem group_nodup (s : ImageScan) (seeds : List Match) :
    ((s.spatialCandidates ++ (s.layers.side (-1) seeds ++
      s.layers.side 1 seeds)).map coord).Nodup :=
  Layers.group_coord_nodup seeds spatialCandidates_nodup fun _ hm => (Layers.mem_candidates hm).1

theorem walk_side (hheight : 0 ≤ s.height) (hblock : s.cfg.block ≤ s.height)
    (hdirection : direction = -1 ∨ direction = 1) (ht0 : s.layers.valid s.t0) :
    s.walk p direction (Int.range 1 (s.cfg.radius + 1)) seeds global =
    if s.AllRepresentable (s.layers.visitsFrom direction seeds 1) then
      .ok ((s.layers.side direction seeds).foldl (p.add (s.cfg.group - 1)) global)
    else .error unrepresentable :=
  walk_eq (k := 0) hheight hblock hdirection ht0

theorem imageMatch_found (s : ImageScan) (build : ImageBuild) : s.imageMatch build = s.found := by
  unfold imageMatch found
  by_cases hrefused : ¬s.admits = true
  · rw [if_pos hrefused, if_pos hrefused]
  rw [if_neg hrefused, if_neg hrefused]
  obtain ⟨hnch, hheight, hblock, ht0⟩ := admits_iff (not_not.mp hrefused)
  by_cases hgroup : s.cfg.group = 1
  · rw [if_pos hgroup, if_pos hgroup]
  rw [if_neg hgroup, if_neg hgroup]
  have hwindow : s.AllRepresentable (s.spatialPlaces.map fun q => (s.t0, q)) ↔
      ∀ q ∈ s.spatialPlaces, s.Representable (s.t0, q) := List.forall_mem_map
  have hspatial := spatial_eq hnch build
  cases hscan : s.spatial build with
  | error e =>
    rw [hscan] at hspatial
    split at hspatial
    · exact absurd hspatial nofun
    · next hrep =>
      cases hspatial
      have hfail : ¬s.AllRepresentable s.visited := by
        rw [visited, allRepresentable_append, hwindow]
        exact fun h => hrep h.1
      rw [if_neg hfail]
      rfl
  | ok storage =>
    rw [hscan] at hspatial
    split at hspatial
    swap
    · exact absurd hspatial nofun
    next hrep =>
    have hfinish : build.topK.finish (s.cfg.group - 1) storage =
        best (s.cfg.group - 1) s.spatialCandidates := Except.ok.inj hspatial
    have hvisited : s.AllRepresentable s.visited ↔
        s.AllRepresentable (s.layers.visitsFrom (-1) s.seeds 1) ∧
          s.AllRepresentable (s.layers.visitsFrom 1 s.seeds 1) := by
      rw [visited, allRepresentable_append, allRepresentable_append, hwindow]
      exact and_iff_right hrep
    have hseeds : ∀ found : List Match, found.take (min (found.length : Int) s.cfg.psNum).toNat =
        found.take s.cfg.psNum.toNat := by
      intro found
      have hmin : (min (found.length : Int) s.cfg.psNum).toNat =
          min found.length s.cfg.psNum.toNat := by omega
      rw [hmin, Nat.min_comm, ← List.take_take, List.take_length]
    change (if s.cfg.radius = 0 ∨ s.frames = 1 then Except.ok _ else _) = _
    rw [hfinish]
    by_cases hone : s.cfg.radius = 0 ∨ s.frames = 1
    · obtain ⟨hleft, hleft'⟩ := no_walk s.seeds hone (.inl rfl) ht0
      obtain ⟨hright, hright'⟩ := no_walk s.seeds hone (.inr rfl) ht0
      have hall : s.AllRepresentable s.visited := by
        rw [hvisited, hleft', hright']
        exact ⟨nofun, nofun⟩
      rw [if_pos hone, if_pos hall, hleft, hright, List.append_nil, List.append_nil]
    · rw [if_neg hone]
      rw [hseeds, List.tail_cons, ← seeds, walk_side hheight hblock (.inl rfl) ht0]
      by_cases hleft : s.AllRepresentable (s.layers.visitsFrom (-1) s.seeds 1)
      swap
      · rw [if_neg hleft, if_neg fun h => hleft (hvisited.mp h).1]
        rfl
      rw [if_pos hleft]
      change (do
        let global ← s.walk build.topK 1 (Int.range 1 (s.cfg.radius + 1)) s.seeds _
        return s.reference :: build.topK.finish (s.cfg.group - 1) global) = _
      rw [walk_side hheight hblock (.inr rfl) ht0]
      by_cases hright : s.AllRepresentable (s.layers.visitsFrom 1 s.seeds 1)
      swap
      · rw [if_neg hright, if_neg fun h => hright (hvisited.mp h).2]
        rfl
      have hnd := rank_nodup (group_nodup s s.seeds)
      have hmerged : ((best (s.cfg.group - 1) s.spatialCandidates ++
          (s.layers.side (-1) s.seeds ++ s.layers.side 1 s.seeds)).map rank).Nodup :=
        best_append_nodup hnd
      have hrun := @ImageTopK.run build.topK (s.cfg.group - 1) _ hmerged
      rw [best_append hnd, List.foldl_append, List.foldl_append] at hrun
      rw [if_pos hright, if_pos (hvisited.mpr ⟨hleft, hright⟩), ← hrun]
      rfl

/-- What is found has one match for a place, and no more than the group has room for. -/
theorem found_ok {matches_ : List Match} (h : s.found = .ok matches_) :
    (matches_.map coord).Nodup ∧ (matches_.length : Int) ≤ s.cfg.group := by
  unfold found at h
  split at h
  · exact absurd h nofun
  next hadmits =>
  split at h
  · next hgroup =>
    cases h
    exact ⟨List.nodup_singleton _, by rw [hgroup]; exact le_refl _⟩
  split at h
  · cases h
    have hnd := group_nodup s s.seeds
    have hgroup : 1 ≤ s.cfg.group := by
      unfold admits at hadmits
      simp only [decide_eq_true_eq, not_not, not_or] at hadmits
      omega
    constructor
    · refine List.nodup_cons.mpr ⟨fun hself => ?_, best_coord_nodup _ hnd⟩
      obtain ⟨m, hm, heq⟩ := List.mem_map.mp hself
      rcases List.mem_append.mp (mem_of_mem_best hm) with hm | hm
      · -- the window leaves the place of the reference out
        have hplace := (List.mem_filter.mp (Layers.mem_candidates hm).2).2
        have hxy := (Prod.mk.inj heq).2
        exact of_decide_eq_true hplace (Prod.mk.inj hxy)
      · exact (Layers.group_inside hm).2.1 (Prod.mk.inj heq).1
    · rw [List.length_cons, (best_least (rank_nodup hnd)).1]
      omega
  · exact absurd h nofun

/-- The search of an image: both builds fail for the same searches, those they refuse and those
that meet a distance that is not finite, and find the same matches in the others: the reference,
then the first of the window together with the best of each frame on either side, none twice. -/
theorem imageMatch_eq (s : ImageScan) (lanes : Nat) (divides : lanes ∣ 64) :
    s.imageMatch (.rows lanes divides) = s.imageMatch .generic ∧
      s.imageMatch .generic = s.found ∧
      ∀ matches_, s.found = .ok matches_ →
        (matches_.map coord).Nodup ∧ (matches_.length : Int) ≤ s.cfg.group :=
  ⟨(imageMatch_found s _).trans (imageMatch_found s _).symm, imageMatch_found s _,
    fun _ => found_ok⟩

/-- A search of two frames of two pixels; the patch at `x = 1` of the far frame has a distance. -/
def twoFrames (distance : F32) : ImageScan where
  frames := 2
  nch := 1
  width := 2
  height := 1
  t0 := 0
  x0 := 0
  y0 := 0
  cfg := ⟨1, 2, 3, 1, 1, 1⟩
  ssd := fun _ t x _ => if t = 1 ∧ x = 1 then distance else F32.zero
  add := fun _ v => v
  zero_add := fun _ _ _ => rfl

/-- The pixel of the center frame comes first; an infinite distance in the far frame is met. -/
theorem imageMatch_eq_twoFrames :
    (twoFrames F32.zero).imageMatch (.rows 4 (by decide)) =
        .ok [⟨0, 0, 0, F32.zero, 0⟩, ⟨1, 0, 0, F32.zero, 2⟩] ∧
      (twoFrames 0x7f800000#32).imageMatch (.rows 8 (by decide)) =
        .error unrepresentable := by
  have hequal := imageMatch_eq (twoFrames F32.zero) 4 (by decide)
  have hinfinite := imageMatch_eq (twoFrames 0x7f800000#32) 8 (by decide)
  rw [hequal.1, hequal.2.1, hinfinite.1, hinfinite.2.1]
  decide

end ImageScan

end NssFactory.Cpu
