import NssFactory.Gpu.RollPlan
import NssFactory.Host.RollingFill

/-!
# What a rolling frame requests and what it fetches

At `arInitial` a rolling filter requests the window of its chunk: `2 * radius` frames on each
side on the CPU, `roll_reach` on a device. Which of them it fetches is decided later, by whether
the chunk carries on from the one before and, on a device, by what the source ring is promised
to hold then.

`dependencies_declared`: whatever that decision, every frame fetched for frame `n` is requested.
-/

namespace NssFactory

inductive Clip
  | node | guide
  deriving DecidableEq

/-- A frame of a clip. -/
abbrev Fetch := Clip × Int

def rollingChunkStart (n chunk : Int) : Int := n / chunk * chunk

/-- The frames `first … last` of the source, and of the guide if there is one. -/
def requestFrames (first last : Int) (guide : Bool) : List Fetch :=
  (Int.range first (last + 1)).flatMap fun i =>
    (.node, i) :: if guide then [(.guide, i)] else []

/-! ## The CPU -/

namespace Bm3d.Bm3dData

variable {F : Type*} [FloatArith F] (d : Bm3dData F)

/-- `rollingGetFrame` at `arInitial`. -/
def rollingRequests (chunk n : Int) : List Fetch :=
  let start := rollingChunkStart n chunk
  let count := min chunk (d.numFrames - start)
  requestFrames (max 0 (start - 2 * d.radius))
    (temporalLast (start + count - 1) (2 * d.radius) d.numFrames) d.ref.isSome

/-- A pass over the centers of a chunk: its next output and the frames fetched so far. -/
structure Fetching where
  nextOutput : Int
  fetched : List Fetch

/-- `finish` of a pass: each frame it finishes is fetched. -/
def fetchOutputs (start count center : Int) (s : Fetching) : Fetching :=
  ((Int.range s.nextOutput (start + count)).takeWhile
    fun n => temporalLast n d.radius d.numFrames ≤ center).foldl
    (fun s n => ⟨n + 1, s.fetched ++ [(.node, n)]⟩) s

/-- The window of a center, from the source and from `ref ? ref : node`. -/
def fetchWindow (center : Int) : List Fetch :=
  (Int.range 0 d.ntemp).flatMap fun t =>
    let fn := temporalSlotFrame center t d.radius d.numFrames
    [(.node, fn), (if d.ref.isSome then .guide else .node, fn)]

def fetchCenter (start count : Int) (s : Fetching) (center : Int) : Fetching :=
  d.fetchOutputs start count center { s with fetched := s.fetched ++ d.fetchWindow center }

/-- A pass over the centers of a chunk. -/
def fetchPass (start count : Int) (carry : Bool) (centers : List Int) : Fetching :=
  centers.foldl (d.fetchCenter start count)
    (d.fetchOutputs start count (d.firstCenter start carry - 1) ⟨start, []⟩)

/-- The centers that a chunk runs. -/
def chunkCenters (start count : Int) (carry : Bool) : List Int :=
  Int.range (d.firstCenter start carry) (temporalLast (start + count - 1) d.radius d.numFrames + 1)

/-- `rolling_fill_chunk_carried`: a pass for each plane, or its frames for one left alone. -/
def fetchCarried (planes : List Nat) (start count : Int) (carry : Bool) : List Fetch :=
  planes.flatMap fun plane =>
    if d.filters plane then
      (d.fetchPass start count carry (d.chunkCenters start count carry)).fetched
    else (Int.range start (start + count)).map fun i => (.node, i)

/-- `rolling_fill_chunk_chroma`: one pass for all planes, without centers if none is filtered. -/
def fetchChroma (planes : List Nat) (start count : Int) (carry : Bool) : List Fetch :=
  let any := planes.any d.filters
  let carry := any && carry
  let s := d.fetchPass start count carry (if any then d.chunkCenters start count carry else [])
  (d.fetchOutputs start count (temporalLast (start + count - 1) d.radius d.numFrames) s).fetched

/-- All that `rollingGetFrame` fetches for frame `n` when it computes the chunk, from a carry or
afresh. -/
def rollingFetches (planes : List Nat) (chunk n : Int) (carry : Bool) : List Fetch :=
  let start := rollingChunkStart n chunk
  let count := min chunk (d.numFrames - start)
  (if d.chroma then d.fetchChroma planes start count carry
    else d.fetchCarried planes start count carry) ++ [(.node, n)]

end Bm3d.Bm3dData

/-! ## The devices -/

namespace Rolling

/-- The parts of a group driver that say what it fetches: `gpu` for GPU frames. -/
structure GroupDriver extends Geometry where
  rollingChunk : Int
  guide : Bool
  gpu : Bool

/-- A unit of a chunk: its `RollTurn`, planned over a ring that is promised to hold some frames. -/
structure PlannedTurn where
  ring : Int
  carry : Bool
  promised : Int → Int

namespace GroupDriver

variable (d : GroupDriver)

/-- `getFrame` at `arInitial`. -/
def requests (n : Int) : List Fetch :=
  let start := rollingChunkStart n d.rollingChunk
  let count := min d.rollingChunk (d.numFrames - start)
  requestFrames (max 0 (start - d.rollReach))
    (temporalLast (start + count - 1) d.rollReach d.numFrames) d.guide

/-- The frames a turn stages. -/
def turnFetches (start count : Int) (t : PlannedTurn) : List Fetch :=
  (d.plan t.ring start count t.carry t.promised).uploads.flatMap fun fn =>
    (.node, fn) :: if d.guide then [(.guide, fn)] else []

/-- `compute_chunk` for the turns of its active units, with the planes that are copied, if
there are any, and then the source of the output frame. -/
def fetches (turns : List PlannedTurn) (copies : Bool) (n : Int) : List Fetch :=
  let start := rollingChunkStart n d.rollingChunk
  let count := min d.rollingChunk (d.numFrames - start)
  (if copies ∧ ¬d.gpu then (Int.range start (start + count)).map fun i => (.node, i) else []) ++
    turns.flatMap (d.turnFetches start count) ++ [(.node, n)]

end GroupDriver

end Rolling

/-! ## Chunks -/

theorem chunk_range {n chunk frames : Int} (hchunk : 1 ≤ chunk) (hn : 0 ≤ n) (hlt : n < frames) :
    0 ≤ rollingChunkStart n chunk ∧ rollingChunkStart n chunk ≤ n ∧
      n < rollingChunkStart n chunk + min chunk (frames - rollingChunkStart n chunk) ∧
      rollingChunkStart n chunk + min chunk (frames - rollingChunkStart n chunk) ≤ frames := by
  have hdiv := Int.ediv_mul_le n (show chunk ≠ 0 by omega)
  have hmod := Int.lt_ediv_add_one_mul_self n (show 0 < chunk by omega)
  rw [Int.add_mul] at hmod
  have hnonneg := Int.mul_nonneg (Int.ediv_nonneg hn (show 0 ≤ chunk by omega)) (show 0 ≤ chunk by omega)
  unfold rollingChunkStart
  omega

theorem mem_requestFrames {first last i : Int} {guide : Bool} {clip : Clip} :
    (clip, i) ∈ requestFrames first last guide ↔
      first ≤ i ∧ i ≤ last ∧ (clip = .guide → guide = true) := by
  unfold requestFrames
  simp only [List.mem_flatMap, Int.mem_range_iff]
  cases guide <;> cases clip <;> simp <;> omega

namespace Bm3d.Bm3dData

variable {F : Type*} [FloatArith F] {d : Bm3dData F} {start count center : Int} {carry : Bool}
  {s : Fetching} {planes : List Nat} {x : Fetch}

/-- A frame of the window that the chunk requests. -/
def Requested (d : Bm3dData F) (start count : Int) (x : Fetch) : Prop :=
  max 0 (start - 2 * d.radius) ≤ x.2 ∧ x.2 ≤ min (start + count - 1 + 2 * d.radius) (d.numFrames - 1) ∧
    (x.1 = .guide → d.ref.isSome = true)

omit [FloatArith F] in
theorem requested_own (hl : d.Legal start count) {i : Int} (hi : start ≤ i) (hlt : i < start + count) :
    d.Requested start count (.node, i) := by
  have := hl.radius_pos
  have := hl.start_nonneg
  have := hl.end_le
  refine ⟨?_, ?_, nofun⟩ <;> simp only <;> omega

/-- A pass that fetches requested frames only. -/
def Fetching.Sound (d : Bm3dData F) (start count : Int) (s : Fetching) : Prop :=
  start ≤ s.nextOutput ∧ ∀ x ∈ s.fetched, d.Requested start count x

omit [FloatArith F] in
theorem Fetching.Sound.outputs (hl : d.Legal start count) (h : s.Sound d start count) :
    (d.fetchOutputs start count center s).Sound d start count := by
  have hround : ∀ (l : List Int) (t : Fetching), t.Sound d start count →
      (∀ i ∈ l, start ≤ i ∧ i < start + count) →
      (l.foldl (fun s n => ⟨n + 1, s.fetched ++ [(.node, n)]⟩) t : Fetching).Sound d start count := by
    intro l
    induction l with
    | nil => exact fun t ht _ => ht
    | cons i l ih =>
      intro t ht hmem
      obtain ⟨hi, hlt⟩ := hmem i List.mem_cons_self
      refine ih _ ⟨by simp only; omega, fun x hx => ?_⟩ fun j hj => hmem j (List.mem_cons_of_mem _ hj)
      rcases List.mem_append.mp hx with hx | hx
      · exact ht.2 x hx
      · rw [List.mem_singleton.mp hx]
        exact requested_own hl hi hlt
  refine hround _ s h fun i hi => ?_
  have hrange := Int.mem_range_iff.mp (List.takeWhile_sublist _ |>.subset hi)
  have := h.1
  omega

omit [FloatArith F] in
/-- The window of a center of the chunk is requested. -/
theorem fetchWindow_requested (hl : d.Legal start count) (hlo : max 0 (start - d.radius) ≤ center)
    (hhi : center ≤ temporalLast (start + count - 1) d.radius d.numFrames)
    (hx : x ∈ d.fetchWindow center) : d.Requested start count x := by
  have := hl.radius_pos
  have := hl.count_pos
  have := hl.end_le
  rw [temporalLast_eq] at hhi
  obtain ⟨t, ht, hx⟩ := List.mem_flatMap.mp hx
  have hrange := Int.mem_range_iff.mp ht
  have hslotlt : t ≤ 2 * d.radius := by
    have := hrange.2
    unfold ntemp at this
    omega
  have hslot : max 0 (center - d.radius) ≤ temporalSlotFrame center t d.radius d.numFrames ∧
      temporalSlotFrame center t d.radius d.numFrames ≤
        min (center + d.radius) (d.numFrames - 1) :=
    temporalSlotFrame_mem (by omega) (by omega) hrange.1 hslotlt
  have hboth : ∀ clip : Clip, (clip = .guide → d.ref.isSome = true) →
      d.Requested start count (clip, temporalSlotFrame center t d.radius d.numFrames) := by
    intro clip hclip
    refine ⟨?_, ?_, hclip⟩ <;> simp only <;> omega
  simp only [List.mem_cons, List.not_mem_nil, or_false] at hx
  rcases hx with rfl | rfl
  · exact hboth _ nofun
  · refine hboth _ fun hg => ?_
    by_contra hnone
    rw [if_neg hnone] at hg
    cases hg

omit [FloatArith F] in
theorem chunkCenters_range (hl : d.Legal start count) (hc : center ∈ d.chunkCenters start count carry) :
    max 0 (start - d.radius) ≤ center ∧
      center ≤ temporalLast (start + count - 1) d.radius d.numFrames := by
  have := hl.radius_pos
  have := hl.start_nonneg
  have := hl.count_pos
  have := hl.end_le
  obtain ⟨hlo, hhi⟩ := Int.mem_range_iff.mp hc
  refine ⟨?_, by omega⟩
  cases carry with
  | false => exact hlo
  | true =>
    rw [firstCenter_carry, temporalLast_eq] at hlo
    omega

omit [FloatArith F] in
theorem fetchPass_sound (hl : d.Legal start count) {centers : List Int}
    (hcenters : ∀ c ∈ centers, c ∈ d.chunkCenters start count carry) :
    (d.fetchPass start count carry centers).Sound d start count := by
  unfold fetchPass
  have hround : ∀ (l : List Int) (t : Fetching), t.Sound d start count →
      (∀ c ∈ l, c ∈ d.chunkCenters start count carry) →
      (l.foldl (d.fetchCenter start count) t).Sound d start count := by
    intro l
    induction l with
    | nil => exact fun t ht _ => ht
    | cons c l ih =>
      intro t ht hmem
      obtain ⟨hlo, hhi⟩ := chunkCenters_range hl (hmem c List.mem_cons_self)
      refine ih _ (Fetching.Sound.outputs hl ⟨ht.1, fun x hx => ?_⟩)
        fun j hj => hmem j (List.mem_cons_of_mem _ hj)
      rcases List.mem_append.mp hx with hx | hx
      · exact ht.2 x hx
      · exact fetchWindow_requested hl hlo hhi hx
  exact hround _ _ (Fetching.Sound.outputs hl ⟨Int.le_refl _, fun _ hx => nomatch hx⟩) hcenters

omit [FloatArith F] in
theorem fetchCarried_requested (hl : d.Legal start count)
    (hx : x ∈ d.fetchCarried planes start count carry) : d.Requested start count x := by
  obtain ⟨plane, -, hx⟩ := List.mem_flatMap.mp hx
  split at hx
  · exact (fetchPass_sound hl fun _ hc => hc).2 x hx
  · obtain ⟨i, hi, rfl⟩ := List.mem_map.mp hx
    have := Int.mem_range_iff.mp hi
    exact requested_own hl this.1 this.2

omit [FloatArith F] in
theorem fetchChroma_requested (hl : d.Legal start count)
    (hx : x ∈ d.fetchChroma planes start count carry) : d.Requested start count x := by
  refine (Fetching.Sound.outputs hl (fetchPass_sound hl fun c hc => ?_)).2 x hx
  split at hc
  · exact hc
  · cases hc

omit [FloatArith F] in
/-- Whether a CPU chunk carries on or not, every frame it fetches is requested. -/
theorem rollingFetches_subset {chunk n : Int} (hradius : 1 ≤ d.radius) (hchunk : 1 ≤ chunk)
    (hn : 0 ≤ n) (hlt : n < d.numFrames) (hx : x ∈ d.rollingFetches planes chunk n carry) :
    x ∈ d.rollingRequests chunk n := by
  obtain ⟨h0, hle, hnlt, hend⟩ := chunk_range hchunk hn hlt
  have hl : d.Legal (rollingChunkStart n chunk) (min chunk (d.numFrames - rollingChunkStart n chunk)) :=
    ⟨hradius, h0, by omega, hend⟩
  have hreq : d.Requested (rollingChunkStart n chunk)
      (min chunk (d.numFrames - rollingChunkStart n chunk)) x := by
    rcases List.mem_append.mp hx with hx | hx
    · split at hx
      · exact fetchChroma_requested hl hx
      · exact fetchCarried_requested hl hx
    · rw [List.mem_singleton.mp hx]
      exact requested_own hl hle hnlt
  unfold rollingRequests
  refine mem_requestFrames.mpr ⟨hreq.1, ?_, hreq.2.2⟩
  rw [temporalLast_eq]
  exact hreq.2.1

end Bm3d.Bm3dData

/-! ## The walk's windows -/

namespace Rolling

variable {d : Geometry} {start count : Int}

/-- A walk whose staged frames are within the reach of its chunk. -/
structure InReach (d : Geometry) (start count : Int) (w : Walk) : Prop where
  center_ge : d.twoStage = true → max 0 (start - 3 * d.radius) ≤ w.center
  staged : ∀ v ∈ w.visits, ∀ F ∈ d.stages v,
    max 0 (start - d.rollReach) ≤ F ∧ F ≤ min (start + count - 1 + d.rollReach) d.last

/-- A call that stages nothing out of reach. -/
theorem InReach.visit {w w' : Walk} {v : Visit} (h : InReach d start count w)
    (hv : w'.visits = w.visits ++ [v])
    (hc : d.twoStage = true → max 0 (start - 3 * d.radius) ≤ w'.center)
    (hstaged : ∀ F ∈ d.stages v,
      max 0 (start - d.rollReach) ≤ F ∧ F ≤ min (start + count - 1 + d.rollReach) d.last) :
    InReach d start count w' := by
  refine ⟨hc, fun u hu => ?_⟩
  rw [hv] at hu
  rcases List.mem_append.mp hu with hu | hu
  · exact h.staged u hu
  · rw [List.mem_singleton.mp hu]
    exact hstaged

theorem InReach.loop {body : Walk → Int → Walk} {l : List Int} {w : Walk}
    (h : InReach d start count w)
    (round : ∀ (t : Walk) (i : Int), i ∈ l → InReach d start count t →
      InReach d start count (body t i)) : InReach d start count (l.foldl body w) :=
  List.foldlRecOn l body h fun t ht i hi => round t i hi ht

/-- The window of a center at most `k * radius` from the chunk. -/
theorem window_reach {center F k : Int} (hk : k * d.radius + d.radius ≤ d.rollReach)
    (hlo : max 0 (start - k * d.radius) ≤ center)
    (hhi : center ≤ min (start + count - 1 + k * d.radius) d.last)
    (hF : F ∈ d.windowFrames center) :
    max 0 (start - d.rollReach) ≤ F ∧ F ≤ min (start + count - 1 + d.rollReach) d.last := by
  have hwindow := (mem_windowFrames (by omega) (by omega)).mp hF
  omega

theorem rollReach_one (h2 : d.twoStage = false) : 1 * d.radius + d.radius ≤ d.rollReach := by
  simp only [Geometry.rollReach, h2, Bool.false_eq_true, if_false]
  omega

theorem rollReach_two (h2 : d.twoStage = true) : 3 * d.radius + d.radius ≤ d.rollReach := by
  simp only [Geometry.rollReach, h2, if_true]
  omega

/-- The basic centers of an estimate that a center of the chunk needs. -/
theorem InReach.basicCenters (h2 : d.twoStage = true) {w : Walk} (h : InReach d start count w)
    {f frame : Int} (hf : f ≤ d.lastCenter start count) (hframe : frame ≤ min (f + d.radius) d.last) :
    InReach d start count (Geometry.basicCenters (min (frame + d.radius) d.last) w) := by
  have hstart := h.center_ge h2
  unfold Geometry.lastCenter at hf
  refine h.loop fun t c hc ht => ?_
  obtain ⟨hlo, hhi⟩ := Int.mem_range_iff.mp hc
  refine ht.visit rfl (fun _ => ?_) fun F hF => ?_
  · simp only
    omega
  · exact window_reach (rollReach_two h2) (by omega) (by omega) hF

theorem InReach.basicFrames (h2 : d.twoStage = true) {w : Walk} (h : InReach d start count w)
    {f : Int} (hf : f ≤ d.lastCenter start count) : InReach d start count (d.basicFrames f w) := by
  refine h.loop fun t frame hframe ht => ?_
  have hbasic := ht.basicCenters h2 hf (Int.lt_add_one_iff.mp (Int.mem_range_iff.mp hframe).2)
  exact hbasic.visit rfl hbasic.center_ge fun F hF => nomatch hF

theorem InReach.outputs {w : Walk} (h : InReach d start count w) {fin f : Int} :
    InReach d start count (d.outputs fin f w) :=
  h.loop fun _ _ _ ht => ht.visit rfl ht.center_ge fun _ hF => nomatch hF

theorem InReach.walkCenter (hl : d.Legal start count) {w : Walk} (h : InReach d start count w)
    {f fin : Int} (hlo : max 0 (start - d.radius) ≤ f) (hf : f ≤ d.lastCenter start count) :
    InReach d start count (d.walkCenter fin w f) := by
  have hr := hl.radius_pos
  have hstaged : ∀ next F, F ∈ d.stages (.center f next) →
      max 0 (start - d.rollReach) ≤ F ∧ F ≤ min (start + count - 1 + d.rollReach) d.last := by
    intro next F hF
    unfold Geometry.lastCenter at hf
    cases h2 : d.twoStage with
    | true => simp [Geometry.stages, h2] at hF
    | false =>
      simp only [Geometry.stages, h2, Bool.false_eq_true, if_false] at hF
      exact window_reach (rollReach_one h2) (by omega) (by omega) hF
  have hvisit : ∀ w' : Walk, InReach d start count w' →
      InReach d start count { w' with visits := w'.visits ++ [Visit.center f w'.out] } :=
    fun w' hw' => hw'.visit rfl hw'.center_ge (hstaged w'.out)
  unfold Geometry.walkCenter
  cases h2 : d.twoStage with
  | true => exact (hvisit _ (h.basicFrames h2 hf)).outputs
  | false => exact (hvisit _ h).outputs

theorem firstCenter_le (hl : d.Legal start count) (carry : Bool) :
    max 0 (start - d.radius) ≤ d.firstCenter start count carry := by
  have ⟨hr, h0, hcount, hend⟩ := hl
  have hlst : d.last = d.numFrames - 1 := rfl
  unfold Geometry.firstCenter Geometry.lastCenter
  split <;> omega

theorem firstBasic_le (hl : d.Legal start count) (carry : Bool) :
    max 0 (start - 3 * d.radius) ≤ d.firstBasic start count carry := by
  have ⟨hr, h0, hcount, hend⟩ := hl
  have hlst : d.last = d.numFrames - 1 := rfl
  have hcenter := firstCenter_le hl carry
  unfold Geometry.firstBasic Geometry.firstFrame
  split <;> omega

/-- Whatever a chunk carries on from, the frames it stages are within its reach. -/
theorem walkChunk_stages (hl : d.Legal start count) (carry : Bool) {v : Visit} {F : Int}
    (hv : v ∈ d.walkChunk start count carry) (hF : F ∈ d.stages v) :
    max 0 (start - d.rollReach) ≤ F ∧ F ≤ min (start + count - 1 + d.rollReach) d.last := by
  unfold Geometry.walkChunk at hv
  rcases List.mem_append.mp hv with hv | hv
  · refine InReach.staged (InReach.loop ⟨fun _ => firstBasic_le hl carry, by simp⟩ ?_) v hv F hF
    intro t f hf ht
    obtain ⟨hlo, hhi⟩ := Int.mem_range_iff.mp hf
    have := firstCenter_le hl carry
    exact ht.walkCenter hl (by omega) (by omega)
  · obtain ⟨i, -, rfl⟩ := List.mem_map.mp hv
    cases hF

namespace GroupDriver

variable {d : GroupDriver} {x : Fetch}

/-- Whatever the source ring is promised to hold, every frame a device filter fetches is
requested. -/
theorem fetches_subset {turns : List PlannedTurn} {copies : Bool} {n : Int}
    (hradius : 1 ≤ d.radius) (hchunk : 1 ≤ d.rollingChunk) (hn : 0 ≤ n) (hlt : n < d.numFrames)
    (hx : x ∈ d.fetches turns copies n) : x ∈ d.requests n := by
  obtain ⟨h0, hle, hnlt, hend⟩ := chunk_range hchunk hn hlt
  have hl : d.Legal (rollingChunkStart n d.rollingChunk)
      (min d.rollingChunk (d.numFrames - rollingChunkStart n d.rollingChunk)) :=
    ⟨hradius, h0, by omega, hend⟩
  have hlast : d.last = d.numFrames - 1 := rfl
  have hreach := rollReach_nonneg hl
  unfold requests
  obtain ⟨clip, i⟩ := x
  simp only [temporalLast_eq]
  refine mem_requestFrames.mpr ?_
  have hown : ∀ j, rollingChunkStart n d.rollingChunk ≤ j →
      j < rollingChunkStart n d.rollingChunk +
        min d.rollingChunk (d.numFrames - rollingChunkStart n d.rollingChunk) →
      ((clip, i) : Fetch) = (.node, j) →
      max 0 (rollingChunkStart n d.rollingChunk - d.rollReach) ≤ i ∧
        i ≤ min (rollingChunkStart n d.rollingChunk +
            min d.rollingChunk (d.numFrames - rollingChunkStart n d.rollingChunk) - 1 + d.rollReach)
          (d.numFrames - 1) ∧ (clip = .guide → d.guide = true) := by
    rintro j hj hjlt ⟨⟩
    exact ⟨by omega, by omega, nofun⟩
  rcases List.mem_append.mp hx with hx | hx
  · rcases List.mem_append.mp hx with hx | hx
    · split at hx
      · obtain ⟨j, hj, heq⟩ := List.mem_map.mp hx
        have := Int.mem_range_iff.mp hj
        exact hown j this.1 this.2 heq.symm
      · cases hx
    · obtain ⟨t, -, hx⟩ := List.mem_flatMap.mp hx
      obtain ⟨fn, hfn, hx⟩ := List.mem_flatMap.mp hx
      rw [plan_eq] at hfn
      obtain ⟨v, hv, hF⟩ := List.mem_flatMap.mp (mem_of_mem_missing hfn)
      have hrange := walkChunk_stages hl t.carry hv hF
      have hpair : i = fn ∧ (clip = .guide → d.guide = true) := by
        cases hguide : d.guide with
        | true =>
          rw [hguide] at hx
          simp only [if_true, List.mem_cons, List.not_mem_nil, or_false, Prod.mk.injEq] at hx
          exact ⟨hx.elim And.right And.right, fun _ => rfl⟩
        | false =>
          rw [hguide] at hx
          simp only [Bool.false_eq_true, if_false, List.mem_singleton, Prod.mk.injEq] at hx
          exact ⟨hx.2, fun hclip => by rw [hx.1] at hclip; cases hclip⟩
      obtain ⟨rfl, hclip⟩ := hpair
      exact ⟨hrange.1, by omega, hclip⟩
  · exact hown n hle hnlt (List.mem_singleton.mp hx)

end GroupDriver

end Rolling

/-- Every frame that a rolling filter can fetch for frame `n` is one it requested: on the CPU,
carrying on or not, and on a device for every promise of the source ring, with one stage or two. -/
theorem dependencies_declared {F : Type*} [Bm3d.FloatArith F] (cpu : Bm3d.Bm3dData F)
    (device : Rolling.GroupDriver) :
    (∀ (planes : List Nat) (chunk n : Int) (carry : Bool), 1 ≤ cpu.radius → 1 ≤ chunk → 0 ≤ n →
        n < cpu.numFrames →
        ∀ x ∈ cpu.rollingFetches planes chunk n carry, x ∈ cpu.rollingRequests chunk n) ∧
      ∀ (turns : List Rolling.PlannedTurn) (copies : Bool) (n : Int), 1 ≤ device.radius →
        1 ≤ device.rollingChunk → 0 ≤ n → n < device.numFrames →
        ∀ x ∈ device.fetches turns copies n, x ∈ device.requests n :=
  ⟨fun _ _ _ _ hr hc hn hlt _ hx => Bm3d.Bm3dData.rollingFetches_subset hr hc hn hlt hx,
    fun _ _ _ hr hc hn hlt _ hx => Rolling.GroupDriver.fetches_subset hr hc hn hlt hx⟩

/-- Two stages with a guide on ten frames, in chunks of two. -/
def tenFrames : Rolling.GroupDriver where
  radius := 1
  numFrames := 10
  twoStage := true
  rollingChunk := 2
  guide := true
  gpu := false

attribute [local instance] Bm3d.Bm3dData.instFloatArithInt

/-- The second chunk, carrying on: its last center on the CPU, and the furthest guide frame on a
device whose ring holds nothing. -/
theorem dependencies_declared_secondChunk :
    ((.node, 4) : Fetch) ∈ Bm3d.Bm3dData.counting.rollingRequests 2 2 ∧
      ((.guide, 7) : Fetch) ∈ tenFrames.requests 3 := by
  obtain ⟨hcpu, hdevice⟩ := dependencies_declared Bm3d.Bm3dData.counting tenFrames
  exact ⟨hcpu [0] 2 2 true (by decide) (by decide) (by decide) (by decide) _ (by decide),
    hdevice [⟨9, true, fun _ => -1⟩] false 3 (by decide) (by decide) (by decide) (by decide) _
      (by decide)⟩

end NssFactory
