import NssFactory.Lib.SlidingSum
import NssFactory.Frontend.Temporal
import Mathlib.Data.Fin.Tuple.Basic

/-!
# The rolling chunks of the CUDA image filters

NLH and TWSC with a radius finish the frames of a chunk in `compute_chunk` of
`cuda/common/image_filter.cpp`: the frames are staged, and then, center by center, uploaded
into a ring of `2R + 1` cells, copied as the window the legacy filter has, and run; the slices
are added to the sums of the open frames, in a second ring of `2R + 1` cells.

The kernels are parameters, and so is the arithmetic of the sums: what is proved is equal term
by term and in order.
-/

namespace NssFactory.Cuda.Image

universe u

/-- What `run_center` leaves: whether every plane of the center was left alone, and else the
slice `t` of plane `c` in `s.num` and `s.den`. -/
structure CenterWork (n : Nat) (B : Type u) where
  bypass : Bool
  slices : Fin n → Int → B

/-- What a center adds to the sums of a plane. -/
inductive Slice (P B : Type u) where
  | none
  | identity (plane : P)
  | window (slice : B)

/-- A filter: its clips of `n` source and `m` reference planes a frame, and its kernels.
`unfiltered c` says that the sigma of plane `c` is zero, `pinned` that a plane is page-locked for
direct DMA. `runCenter` takes the window's source and reference planes and the slot of the center
in it. -/
structure ImageData (n m : Nat) (P S B : Type u) where
  radius : Int
  numFrames : Int
  rollingChunk : Int
  gpu : Bool
  estimate : Bool
  unfiltered : Fin n → Bool
  node : Int → Fin n → P
  reference : Int → Fin m → P
  pinned : Int → Fin (n + m) → Bool
  finite : P → Bool
  runCenter : List (Fin n → P) → List (Fin m → P) → Int → Except String (CenterWork n B)
  zero : S
  accumulateIdentity : S → P → S
  accumulateSlice : S → B → S
  aggregateFinish : S → P → P

/-- A slot's buffers: cell `frame % ring` of the source, the reference and the sums ring. -/
structure Slot (n m : Nat) (P S : Type u) where
  ring : Int → Fin n → P
  referenceRing : Int → Fin m → P
  sums : Int → Fin n → S

/-- The planned turn of a chunk. -/
structure RollTurn where
  start : Int
  count : Int
  carry : Bool
  firstCenter : Int
  lastCenter : Int
  uploads : List Int

/-- The regions of a staging set, and the planes that are uploaded from their frame instead. -/
structure Staging (k : Nat) (P : Type u) where
  bytes : Nat → P
  direct : Nat → Fin k → Option P

/-- A center that was run: the first unfinished frame then, the window it copied, and the sums
once its slices were added. -/
structure CenterRun (n m : Nat) (P S : Type u) where
  center : Int
  out : Int
  input : List (Fin n → P)
  reference : List (Fin m → P)
  sums : Int → Fin n → S

/-- A frame that was finished: the sums and the source that were read. -/
structure Finished (n : Nat) (P S : Type u) where
  frame : Int
  sums : Fin n → S
  source : Fin n → P

/-- A chunk while it runs: the slot, the chunk's cursors and store, and what it has done. -/
structure Run (n m : Nat) (P S : Type u) extends Slot n m P S where
  uploaded : List Int
  out : Int
  store : Int → Option (Fin n → P)
  centers : List (CenterRun n m P S)
  finished : List (Finished n P S)

namespace ImageData

variable {n m : Nat} {P S B : Type u} (d : ImageData n m P S B)

def rollRing : Int := 2 * d.radius + 1

def rollReach : Int := 2 * d.radius

/-- The planes of a frame, as they are staged. -/
def inputs (frame : Int) : Fin (n + m) → P := Fin.append (d.node frame) (d.reference frame)

/-! ## The turn -/

def lastFrame (start count : Int) : Int := min (start + count - 1 + 2 * d.radius) (d.numFrames - 1)

def firstFrame (start : Int) (carry : Bool) : Int :=
  if carry then min (start - 1 + 2 * d.radius) (d.numFrames - 1) + 1
  else max 0 (start - 2 * d.radius)

def rollTurn (start count : Int) (carry : Bool) : RollTurn :=
  let lastCenter := min (start + count - 1 + d.radius) (d.numFrames - 1)
  { start, count, carry, lastCenter
    firstCenter :=
      if carry then min (start + d.radius) (lastCenter + 1) else max 0 (start - d.radius)
    uploads := Int.range (d.firstFrame start carry) (d.lastFrame start count + 1) }

/-- The chunk of frame `frame`. -/
def chunkStart (frame : Int) : Int := frame / d.rollingChunk * d.rollingChunk

def chunkCount (frame : Int) : Int := min d.rollingChunk (d.numFrames - d.chunkStart frame)

/-- The frames that a request for `frame` asks its clips for. -/
def requested (frame : Int) : List Int :=
  Int.range (max 0 (d.chunkStart frame - d.rollReach))
    (temporalLast (d.chunkStart frame + d.chunkCount frame - 1) d.rollReach d.numFrames + 1)

/-- The frames that a request for `frame` takes: those its chunk uploads, and the frame itself. -/
def taken (frame : Int) (carry : Bool) : List Int :=
  (d.rollTurn (d.chunkStart frame) (d.chunkCount frame) carry).uploads ++ [frame]

/-- The regions of a staging set. -/
def stagingRegions : Int := (d.rollingChunk + 4 * d.radius) * (n + m)

/-! ## Staging -/

def region (upload : Nat) (k : Fin (n + m)) : Nat := upload * (n + m) + k

/-- Plane `k` of the frame of an upload: uploaded from the frame, or copied into its region. -/
def stage (upload : Nat) (frame : Int) (g : Staging (n + m) P) (k : Fin (n + m)) :
    Except String (Staging (n + m) P) :=
  let plane := d.inputs frame k
  let direct := fun i l => if i = upload ∧ l = k then some plane else g.direct i l
  if d.gpu then .ok { g with direct }
  else if !d.finite plane then .error "nss: nonfinite source/reference sample"
  else if d.pinned frame k then .ok { g with direct }
  else .ok { g with bytes := Function.update g.bytes (region upload k) plane }

/-- Stages the frames of a turn. No entry of `direct` is set before. -/
def stageIn (turn : RollTurn) (g : Staging (n + m) P) : Except String (Staging (n + m) P) :=
  turn.uploads.zipIdx.foldlM
    (fun g upload => (List.finRange (n + m)).foldlM (d.stage upload.2 upload.1) g)
    { g with direct := fun _ _ => none }

/-- The plane that upload `i` moves into plane `k` of its cell. -/
def uploadPlane (g : Staging (n + m) P) (i : Nat) (k : Fin (n + m)) : Except String P :=
  match g.direct i k with
  | some plane =>
    if d.gpu && !d.finite plane then .error "nss: nonfinite source/reference sample" else .ok plane
  | none => .ok (g.bytes (region i k))

/-! ## The chunk -/

/-- The sums start from zero, or from what the chunk before has left. -/
def start (turn : RollTurn) (s : Slot n m P S) : Run n m P S where
  ring := s.ring
  referenceRing := s.referenceRing
  sums := if turn.carry then s.sums else fun _ _ => d.zero
  uploaded := []
  out := turn.start
  store := fun _ => none
  centers := []
  finished := []

/-- Uploads the next frame, plane by plane. -/
def upload (g : Staging (n + m) P) (run : Run n m P S) (frame : Int) :
    Except String (Run n m P S) := do
  let cell := frame % d.rollRing
  let planes ← (List.finRange (n + m)).foldlM
    (fun planes k => do
      let plane ← d.uploadPlane g run.uploaded.length k
      return Function.update planes k plane)
    (Fin.append (run.ring cell) (run.referenceRing cell))
  return { run with
    ring := Function.update run.ring cell fun c => planes (Fin.castAdd m c)
    referenceRing := Function.update run.referenceRing cell fun c => planes (Fin.natAdd n c)
    uploaded := run.uploaded ++ [frame] }

/-- Uploads what is left of the turn's uploads up to frame `last`. -/
def uploadThrough (turn : RollTurn) (g : Staging (n + m) P) (last : Int) (run : Run n m P S) :
    Except String (Run n m P S) :=
  ((turn.uploads.drop run.uploaded.length).takeWhile fun frame => frame ≤ last).foldlM (d.upload g)
    run

/-- What a center that was run adds to plane `c` of a frame. A plane left alone has the identity
slices: the source for its own center, nothing for the others. -/
def slice (work : CenterWork n B) (center frame : Int) (source : Fin n → P) (c : Fin n) :
    Slice P B :=
  if work.bypass || (!d.estimate && d.unfiltered c) then
    if frame = center then .identity (source c) else .none
  else .window (work.slices c (frame - temporalFirst center d.radius))

def add (s : S) : Slice P B → S
  | .none => s
  | .identity plane => d.accumulateIdentity s plane
  | .window slice => d.accumulateSlice s slice

/-- The slices of a center, added to the sums of the frames that are open. -/
def accumulate (center : Int) (work : CenterWork n B) (run : Run n m P S) : Int → Fin n → S :=
  (Int.range (temporalFirst center d.radius)
      (temporalLast center d.radius d.numFrames + 1)).foldl
    (fun sums frame =>
      if frame < run.out then sums
      else Function.update sums (frame % d.rollRing) fun c =>
        d.add (sums (frame % d.rollRing) c)
          (d.slice work center frame (run.ring (frame % d.rollRing)) c))
    run.sums

/-- Finishes the next frame: its sums are a later frame's from here on. -/
def finish (turn : RollTurn) (run : Run n m P S) : Run n m P S :=
  let cell := run.out % d.rollRing
  { run with
    sums := Function.update run.sums cell fun _ => d.zero
    out := run.out + 1
    store := Function.update run.store (run.out - turn.start)
      (some fun c => d.aggregateFinish (run.sums cell c) (run.ring cell c))
    finished := run.finished ++ [⟨run.out, run.sums cell, run.ring cell⟩] }

/-- Finishes the frames of the chunk whose last center is at or before `center`. -/
def finishThrough (turn : RollTurn) (center : Int) (run : Run n m P S) : Run n m P S :=
  ((Int.range run.out (turn.start + turn.count)).takeWhile fun frame =>
    min (frame + d.radius) (d.numFrames - 1) ≤ center).foldl (fun run _ => d.finish turn run) run

/-- One center: its frames, its window, its slices, and the frames it was the last of. -/
def centerStep (turn : RollTurn) (g : Staging (n + m) P) (run : Run n m P S) (center : Int) :
    Except String (Run n m P S) := do
  let first := temporalFirst center d.radius
  let last := temporalLast center d.radius d.numFrames
  let run ← d.uploadThrough turn g last run
  let input := (Int.range first (last + 1)).map fun frame => run.ring (frame % d.rollRing)
  let reference := (Int.range first (last + 1)).map fun frame =>
    run.referenceRing (frame % d.rollRing)
  let work ← d.runCenter input reference (center - first)
  let sums := d.accumulate center work run
  return d.finishThrough turn center
    { run with sums, centers := run.centers ++ [⟨center, run.out, input, reference, sums⟩] }

def finishRest (turn : RollTurn) (run : Run n m P S) : Run n m P S :=
  (Int.range run.out (turn.start + turn.count)).foldl (fun run _ => d.finish turn run) run

def computeChunk (turn : RollTurn) (staging : Staging (n + m) P) (slot : Slot n m P S) :
    Except String (Run n m P S) := do
  let g ← d.stageIn turn staging
  let run ← (Int.range turn.firstCenter (turn.lastCenter + 1)).foldlM (d.centerStep turn g)
    (d.start turn slot)
  return d.finishRest turn run

/-! ## The legacy slices -/

/-- The work of a center as `window_frame` runs it, on the frames of its window. -/
def legacyWork (center : Int) : Except String (CenterWork n B) :=
  let window := Int.range (temporalFirst center d.radius)
    (temporalLast center d.radius d.numFrames + 1)
  d.runCenter (window.map d.node) (window.map d.reference)
    (center - temporalFirst center d.radius)

/-- What a center adds to plane `c` of a frame, from its legacy slices. -/
def contribution (center frame : Int) (c : Fin n) : Slice P B :=
  match d.legacyWork center with
  | .ok work => d.slice work center frame (d.node frame) c
  | .error _ => .none

/-- The sums of a frame over its own centers, in ascending order and from zero. -/
def ownSum (frame : Int) : Fin n → S :=
  (Int.range (max 0 (frame - d.radius)) (min (frame + d.radius) (d.numFrames - 1) + 1)).foldl
    (fun sums center c => d.add (sums c) (d.contribution center frame c)) fun _ => d.zero

/-- A frame as it is finished from its own centers. -/
def result (frame : Int) : Fin n → P :=
  fun c => d.aggregateFinish (d.ownSum frame c) (d.node frame c)

variable {d} {turn : RollTurn} {g : Staging (n + m) P} {run run' : Run n m P S}
variable {slot : Slot n m P S} {e top : Int}

/-! ## Staging -/

/-- Plane `k` of upload `i`, wherever it was staged. -/
def planeAt (g : Staging (n + m) P) (i : Nat) (k : Fin (n + m)) : P :=
  (g.direct i k).getD (g.bytes (region i k))

theorem region_inj {i j : Nat} {k l : Fin (n + m)} (h : region i k = region j l) :
    i = j ∧ k = l := by
  simp only [region] at h
  have hpos : 0 < n + m := k.pos
  have hi := Nat.add_mul_div_right k.1 i hpos
  have hj := Nat.add_mul_div_right l.1 j hpos
  rw [Nat.div_eq_of_lt k.2] at hi
  rw [Nat.div_eq_of_lt l.2] at hj
  have hij : i = j := by
    have : (k.1 + i * (n + m)) / (n + m) = (l.1 + j * (n + m)) / (n + m) := by
      rw [Nat.add_comm k.1, Nat.add_comm l.1, h]
    omega
  subst hij
  exact ⟨rfl, Fin.ext (by omega)⟩

/-- A staging set some of whose planes, `staged`, are those of the turn's uploads. -/
structure Staged (d : ImageData n m P S B) (turn : RollTurn) (staged : Nat → Fin (n + m) → Prop)
    (g : Staging (n + m) P) : Prop where
  direct : ∀ i k plane, g.direct i k = some plane →
    ∃ frame, turn.uploads[i]? = some frame ∧ plane = d.inputs frame k
  plane : ∀ i k, staged i k → ∀ frame, turn.uploads[i]? = some frame →
    planeAt g i k = d.inputs frame k

theorem Staged.stage {staged : Nat → Fin (n + m) → Prop} (h : Staged d turn staged g)
    {i : Nat} {k : Fin (n + m)} {frame : Int} (hi : turn.uploads[i]? = some frame)
    {g' : Staging (n + m) P} (hg : d.stage i frame g k = .ok g') :
    Staged d turn (fun j l => staged j l ∨ j = i ∧ l = k) g' := by
  have hframe : ∀ frame', turn.uploads[i]? = some frame' → frame' = frame := fun frame' h' =>
    Option.some.inj (h'.symm.trans hi)
  -- the plane itself, or a region that is no other plane's
  have hdirect : Staged d turn (fun j l => staged j l ∨ j = i ∧ l = k)
      { g with direct := fun j l => if j = i ∧ l = k then some (d.inputs frame k)
                                    else g.direct j l } := by
    refine ⟨fun j l plane hp => ?_, fun j l hs frame' hf => ?_⟩
    · dsimp only at hp
      split at hp
      · rename_i hjl
        exact ⟨frame, hjl.1 ▸ hi, hjl.2 ▸ (Option.some.inj hp).symm⟩
      · exact h.direct j l plane hp
    · by_cases hjl : j = i ∧ l = k
      · obtain ⟨rfl, rfl⟩ := hjl
        simp [planeAt, hframe frame' hf]
      · simp only [planeAt, if_neg hjl]
        exact h.plane j l (hs.resolve_right hjl) frame' hf
  have hbytes : Staged d turn (fun j l => staged j l ∨ j = i ∧ l = k)
      { g with bytes := Function.update g.bytes (region i k) (d.inputs frame k) } := by
    refine ⟨h.direct, fun j l hs frame' hf => ?_⟩
    by_cases hjl : j = i ∧ l = k
    · obtain ⟨rfl, rfl⟩ := hjl
      cases hd : g.direct j l with
      | none => simp [planeAt, hd, hframe frame' hf]
      | some plane =>
        obtain ⟨frame₁, hf₁, rfl⟩ := h.direct j l plane hd
        simp [planeAt, hd, hframe frame' hf, hframe frame₁ hf₁]
    · have hne : region j l ≠ region i k := fun he => hjl (region_inj he)
      simp only [planeAt, Function.update_of_ne hne]
      exact h.plane j l (hs.resolve_right hjl) frame' hf
  simp only [ImageData.stage] at hg
  split at hg
  · exact Except.ok.inj hg ▸ hdirect
  · split at hg
    · exact absurd hg nofun
    · split at hg
      · exact Except.ok.inj hg ▸ hdirect
      · exact Except.ok.inj hg ▸ hbytes

/-- Every plane of every upload is staged. -/
theorem stageIn_staged {g₀ : Staging (n + m) P} (h : d.stageIn turn g₀ = .ok g) :
    Staged d turn (fun i _ => i < turn.uploads.length) g := by
  have hall := Loops.foldlM_ok_induct
    (fun before g => Staged d turn (fun i _ => i < before.length) g)
    (s := { g₀ with direct := fun _ _ => none }) ⟨nofun, fun _ _ hi => absurd hi (by simp)⟩ ?_ h
  · simpa using hall
  intro before upload rest g g' hl hg hg'
  have hup : turn.uploads.zipIdx[before.length]? = some upload := by simp [hl]
  rw [List.getElem?_zipIdx, Option.map_eq_some_iff] at hup
  obtain ⟨frame, hframe, rfl⟩ := hup
  have hrow := Loops.foldlM_ok_induct
    (fun ks g => Staged d turn (fun i k => i < before.length ∨ i = before.length ∧ k ∈ ks) g)
    (s := g) (by simpa using hg) ?_ hg'
  · refine ⟨hrow.direct, fun i k hi => hrow.plane i k ?_⟩
    rw [List.length_append, List.length_singleton, Nat.lt_succ_iff_lt_or_eq] at hi
    exact hi.imp_right fun hi => ⟨hi, List.mem_finRange k⟩
  intro ks k rest g g' _ hg hg'
  have := hg.stage hframe (by simpa using hg')
  refine ⟨this.direct, fun i l hi => this.plane i l ?_⟩
  rcases hi with hi | ⟨hi, hl⟩
  · exact .inl (.inl hi)
  · rcases List.mem_append.mp hl with hl | hl
    · exact .inl (.inr ⟨hi, hl⟩)
    · exact .inr ⟨hi, List.mem_singleton.mp hl⟩

theorem uploadPlane_ok {i : Nat} {k : Fin (n + m)} {plane : P}
    (h : d.uploadPlane g i k = .ok plane) : plane = planeAt g i k := by
  unfold uploadPlane at h
  cases hd : g.direct i k with
  | none =>
    simp only [hd] at h
    simp [planeAt, hd, Except.ok.inj h]
  | some p =>
    simp only [hd] at h
    split at h
    · cases h
    · simp [planeAt, hd, Except.ok.inj h]

/-! ## The rings -/

/-- A run whose frames up to `top` are uploaded: those of the last ring that are not below `low`
are resident. -/
structure Uploaded (d : ImageData n m P S B) (turn : RollTurn) (low top : Int)
    (run : Run n m P S) : Prop where
  uploads : run.uploaded ++ Int.range (top + 1) (d.lastFrame turn.start turn.count + 1) =
    turn.uploads
  resident : ∀ frame, low ≤ frame → top - 2 * d.radius ≤ frame → frame ≤ top →
    run.ring (frame % d.rollRing) = d.node frame ∧
      run.referenceRing (frame % d.rollRing) = d.reference frame

/-- Uploading changes the rings and the upload cursor only. -/
structure Same (run run' : Run n m P S) : Prop where
  sums : run'.sums = run.sums
  out : run'.out = run.out
  store : run'.store = run.store
  centers : run'.centers = run.centers
  finished : run'.finished = run.finished

theorem inputs_castAdd (frame : Int) (c : Fin n) :
    d.inputs frame (Fin.castAdd m c) = d.node frame c := Fin.append_left _ _ _

theorem inputs_natAdd (frame : Int) (c : Fin m) :
    d.inputs frame (Fin.natAdd n c) = d.reference frame c := Fin.append_right _ _ _

/-- An upload fills the cell of its frame. -/
theorem upload_ok (hg : Staged d turn (fun i _ => i < turn.uploads.length) g) {frame : Int}
    (hup : turn.uploads[run.uploaded.length]? = some frame) (h : d.upload g run frame = .ok run') :
    run' = { run with
      ring := Function.update run.ring (frame % d.rollRing) (d.node frame)
      referenceRing := Function.update run.referenceRing (frame % d.rollRing) (d.reference frame)
      uploaded := run.uploaded ++ [frame] } := by
  obtain ⟨planes, hplanes, h⟩ := Loops.bind_eq_ok.mp h
  obtain rfl := Except.ok.inj h
  have hlt : run.uploaded.length < turn.uploads.length := (List.getElem?_eq_some_iff.mp hup).1
  have hall : ∀ k ∈ List.finRange (n + m), planes k = d.inputs frame k := by
    refine Loops.foldlM_ok_induct
      (fun ks (planes : Fin (n + m) → P) => ∀ k ∈ ks, planes k = d.inputs frame k) nofun ?_ hplanes
    intro ks k rest planes planes' _ hks hplanes'
    obtain ⟨plane, hplane, hplanes'⟩ := Loops.bind_eq_ok.mp hplanes'
    obtain rfl := Except.ok.inj hplanes'
    have heq : plane = d.inputs frame k := by
      rw [uploadPlane_ok hplane, hg.plane _ k hlt frame hup]
    intro l hl
    by_cases hlk : l = k
    · rw [hlk, Function.update_self, heq]
    · rw [Function.update_of_ne hlk]
      exact hks l (by simpa [hlk] using hl)
  have hnode : (fun c => planes (Fin.castAdd m c)) = d.node frame := by
    funext c
    rw [hall _ (List.mem_finRange _), inputs_castAdd]
  have href : (fun c => planes (Fin.natAdd n c)) = d.reference frame := by
    funext c
    rw [hall _ (List.mem_finRange _), inputs_natAdd]
  rw [hnode, href]

theorem Uploaded.upload {low : Int}
    (hg : Staged d turn (fun i _ => i < turn.uploads.length) g)
    (h : Uploaded d turn low top run) (ht : top < d.lastFrame turn.start turn.count)
    (hrun : d.upload g run (top + 1) = .ok run') :
    Uploaded d turn low (top + 1) run' ∧ Same run run' := by
  have hring : d.rollRing = 2 * d.radius + 1 := rfl
  have huploads := h.uploads
  rw [Loops.range_cons (by omega)] at huploads
  obtain rfl := upload_ok hg (by rw [← huploads]; simp) hrun
  refine ⟨⟨?_, ?_⟩, ⟨rfl, rfl, rfl, rfl, rfl⟩⟩
  · rw [← huploads, List.append_assoc, List.singleton_append]
  · intro frame h0 h1 h2
    by_cases hf : frame = top + 1
    · subst hf
      exact ⟨Function.update_self _ _ _, Function.update_self _ _ _⟩
    · obtain ⟨hnode, href⟩ := h.resident frame h0 (by omega) (by omega)
      dsimp only
      rw [update_cell_of_ne _ _ (by omega) (by omega) hf,
        update_cell_of_ne _ _ (by omega) (by omega) hf]
      exact ⟨hnode, href⟩

/-- The uploads of a center. -/
theorem Uploaded.uploadThrough {low last : Int}
    (hg : Staged d turn (fun i _ => i < turn.uploads.length) g)
    (h : Uploaded d turn low top run) (ht : top ≤ last)
    (hl : last ≤ d.lastFrame turn.start turn.count)
    (hrun : d.uploadThrough turn g last run = .ok run') :
    Uploaded d turn low last run' ∧ Same run run' := by
  have hdrop : turn.uploads.drop run.uploaded.length =
      Int.range (top + 1) (d.lastFrame turn.start turn.count + 1) := by
    rw [← h.uploads, List.drop_left]
  rw [ImageData.uploadThrough, hdrop, Loops.range_takeWhile_le (by omega) (by omega)] at hrun
  have := Loops.foldlM_range_induct
    (fun x run' => Uploaded d turn low (x - 1) run' ∧ Same run run') (by omega)
    ⟨by rwa [Int.add_sub_cancel], ⟨rfl, rfl, rfl, rfl, rfl⟩⟩ ?_ hrun
  · rwa [Int.add_sub_cancel] at this
  intro x s s' hx hxl ⟨hs, hsame⟩ hs'
  obtain ⟨hup, hsame'⟩ := hs.upload hg (by omega) (by rwa [Int.sub_add_cancel])
  rw [Int.sub_add_cancel] at hup
  rw [Int.add_sub_cancel]
  exact ⟨hup, hsame'.sums.trans hsame.sums, hsame'.out.trans hsame.out,
    hsame'.store.trans hsame.store, hsame'.centers.trans hsame.centers,
    hsame'.finished.trans hsame.finished⟩

/-! ## The sums -/

/-- What the centers add to the frames of the clip. -/
def sliding (d : ImageData n m P S B) : Sliding (Fin n → S) (Fin n → Slice P B) where
  zero := fun _ => d.zero
  add := fun sums slices c => d.add (sums c) (slices c)
  term := d.contribution
  radius := d.radius
  last := d.numFrames - 1

@[simp] theorem sliding_ring : d.sliding.ring = d.rollRing := rfl

@[simp] theorem sliding_radius : d.sliding.radius = d.radius := rfl

@[simp] theorem sliding_last : d.sliding.last = d.numFrames - 1 := rfl

theorem ownSum_eq (frame : Int) : d.ownSum frame = d.sliding.total frame := rfl

/-- The frames that are finished are passed over. -/
theorem accumulate_eq {center : Int} {work : CenterWork n B}
    (h : max run.out (temporalFirst center d.radius) ≤
      temporalLast center d.radius d.numFrames + 1)
    (hwork : d.legacyWork center = .ok work)
    (hring : ∀ frame, temporalFirst center d.radius ≤ frame →
      frame ≤ temporalLast center d.radius d.numFrames →
      run.ring (frame % d.rollRing) = d.node frame) :
    d.accumulate center work run =
      d.sliding.addCenter (max run.out (temporalFirst center d.radius))
        (temporalLast center d.radius d.numFrames) center run.sums := by
  have hskip : ∀ (l : List Int) (sums : Int → Fin n → S), (∀ frame ∈ l, frame < run.out) →
      l.foldl (fun (sums : Int → Fin n → S) (frame : Int) =>
        if frame < run.out then sums
        else Function.update sums (frame % d.rollRing) fun c =>
          d.add (sums (frame % d.rollRing) c)
            (d.slice work center frame (run.ring (frame % d.rollRing)) c)) sums = sums := by
    intro l sums hl
    induction l generalizing sums with
    | nil => rfl
    | cons frame l ih =>
      rw [List.foldl_cons, if_pos (hl frame List.mem_cons_self)]
      exact ih _ fun f hf => hl f (List.mem_cons_of_mem _ hf)
  rw [accumulate, Loops.range_append (Int.le_max_right run.out _) h, List.foldl_append,
    hskip (Int.range _ (max run.out _))]
  · rw [Sliding.addCenter, putRange]
    apply List.foldl_ext
    intro sums frame hframe
    have hmem := Int.mem_range_iff.mp hframe
    rw [if_neg (by omega), hring frame (by omega) (by omega)]
    simp only [sliding, contribution, hwork]
    rfl
  · intro frame hframe
    have := Int.mem_range_iff.mp hframe
    omega

/-! ## The chunk -/

/-- A chunk of the clip. -/
structure Legal (d : ImageData n m P S B) (turn : RollTurn) : Prop where
  radius_pos : 1 ≤ d.radius
  start_nonneg : 0 ≤ turn.start
  count_pos : 1 ≤ turn.count
  end_le : turn.start + turn.count ≤ d.numFrames
  count_le : turn.count ≤ d.rollingChunk
  planned : turn = d.rollTurn turn.start turn.count turn.carry

/-- The first frame that a chunk reads. -/
def low (d : ImageData n m P S B) (turn : RollTurn) : Int :=
  if turn.carry then turn.start else max 0 (turn.start - 2 * d.radius)

/-- A center that was run as the legacy filter runs it: on the frames of its window, its open
frames in cells of their own, each with the sum of its centers up to this one. -/
structure AsLegacy (d : ImageData n m P S B) (run : CenterRun n m P S) : Prop where
  input : run.input = (Int.range (temporalFirst run.center d.radius)
    (temporalLast run.center d.radius d.numFrames + 1)).map d.node
  reference : run.reference = (Int.range (temporalFirst run.center d.radius)
    (temporalLast run.center d.radius d.numFrames + 1)).map d.reference
  apart : ∀ frame frame', run.out ≤ frame → frame ≤ temporalLast run.center d.radius d.numFrames →
    run.out ≤ frame' → frame' ≤ temporalLast run.center d.radius d.numFrames →
    frame % d.rollRing = frame' % d.rollRing → frame = frame'
  sums : ∀ frame, run.out ≤ frame → frame ≤ temporalLast run.center d.radius d.numFrames →
    run.sums (frame % d.rollRing) = d.sliding.sumBelow frame (run.center + 1)

/-- A chunk before center `e`, when the frames up to `top` are uploaded. -/
structure Running (d : ImageData n m P S B) (turn : RollTurn) (e top : Int) (run : Run n m P S) :
    Prop extends Uploaded d turn (low d turn) top run where
  start_le : turn.start ≤ run.out
  le_end : run.out ≤ turn.start + turn.count
  opened : d.sliding.Open run.sums run.out e
  reach : e ≤ run.out + d.radius + 1
  near : run.out ≤ e + d.radius
  past : turn.start < run.out → min (run.out - 1 + d.radius) (d.numFrames - 1) < e
  not_due : run.out < turn.start + turn.count →
    e ≤ min (run.out + d.radius) (d.numFrames - 1) + 1
  top_le : top ≤ min (e - 1 + d.radius) (d.numFrames - 1)
  finished : run.finished =
    (Int.range turn.start run.out).map fun frame => ⟨frame, d.ownSum frame, d.node frame⟩
  store : ∀ frame, turn.start ≤ frame → frame < run.out →
    run.store (frame - turn.start) = some (d.result frame)
  centers : run.centers.map CenterRun.center = Int.range turn.firstCenter e
  right : ∀ center ∈ run.centers, AsLegacy d center

theorem Legal.lastCenter_eq (hl : Legal d turn) :
    turn.lastCenter = min (turn.start + turn.count - 1 + d.radius) (d.numFrames - 1) := by
  rw [hl.planned]
  rfl

theorem Legal.firstCenter_eq (hl : Legal d turn) :
    turn.firstCenter =
      if turn.carry then min (turn.start + d.radius) (turn.lastCenter + 1)
      else max 0 (turn.start - d.radius) := by
  rw [hl.planned]
  rfl

theorem Legal.uploads_eq (hl : Legal d turn) :
    turn.uploads = Int.range (d.firstFrame turn.start turn.carry)
      (d.lastFrame turn.start turn.count + 1) := by
  rw [hl.planned]
  rfl

/-- The frames that a chunk reads are at or before those it finishes. -/
theorem low_le (hl : Legal d turn) : low d turn ≤ turn.start := by
  have := hl.start_nonneg
  have := hl.radius_pos
  unfold low
  split <;> omega

/-- Finishing the frame whose last center has run. -/
theorem Running.finish (hl : Legal d turn) (h : Running d turn e top run)
    (hlt : run.out < turn.start + turn.count)
    (hdue : min (run.out + d.radius) (d.numFrames - 1) ≤ e - 1)
    (htop : top = min (e - 1 + d.radius) (d.numFrames - 1)) :
    Running d turn e top (d.finish turn run) := by
  have hr := hl.radius_pos
  have hend := hl.end_le
  have hlow := low_le hl
  have h0 := h.start_le
  have hreach := h.reach
  have hnd := h.not_due hlt
  have hout : (d.finish turn run).out = run.out + 1 := rfl
  have hsum : run.sums (run.out % d.rollRing) = d.ownSum run.out := by
    rw [ownSum_eq, ← sliding_ring]
    apply h.opened.total
    all_goals simp only [sliding_radius, sliding_last]
    all_goals omega
  have hnode : run.ring (run.out % d.rollRing) = d.node run.out :=
    (h.resident run.out (by omega) (by omega) (by omega)).1
  constructor
  · exact ⟨h.uploads, h.resident⟩
  · omega
  · omega
  · exact h.opened.finish (by simp only [sliding_radius]; omega)
  · omega
  · omega
  · intro _
    omega
  · intro _
    omega
  · exact h.top_le
  · change run.finished ++ _ = _
    rw [h.finished, hsum, hnode, hout, Loops.range_snoc h0, List.map_append]
    rfl
  · intro frame hf hf'
    rw [hout] at hf'
    by_cases heq : frame = run.out
    · subst heq
      simp only [ImageData.finish, Function.update_self, hsum, hnode]
      rfl
    · simp only [ImageData.finish]
      rw [Function.update_of_ne (by omega)]
      exact h.store frame hf (by omega)
  · exact h.centers
  · exact h.right

/-- After `finishThrough` nothing is due: the next frame still waits for center `e`. -/
theorem Running.finishThrough (hl : Legal d turn) (h : Running d turn e top run)
    (htop : top = min (e - 1 + d.radius) (d.numFrames - 1)) :
    Running d turn e top (d.finishThrough turn (e - 1) run) ∧
      ((d.finishThrough turn (e - 1) run).out < turn.start + turn.count →
        e ≤ min ((d.finishThrough turn (e - 1) run).out + d.radius) (d.numFrames - 1)) := by
  obtain ⟨hrun, hnot⟩ := Loops.foldl_due_induct (Running d turn e top) Run.out
    (fun frame => min (frame + d.radius) (d.numFrames - 1) ≤ e - 1) (d.finish turn) h
    fun s hs hlt hdue => ⟨hs.finish hl hlt (of_decide_eq_true hdue) htop, rfl⟩
  refine ⟨hrun, fun hlt => ?_⟩
  have := of_decide_eq_false (hnot hlt)
  simp only [ImageData.finishThrough] at this ⊢
  omega

/-- When all the centers of a chunk have run, every frame that is left is due. -/
theorem Running.finishRest (hl : Legal d turn) (h : Running d turn (turn.lastCenter + 1) top run)
    (htop : top = min (turn.lastCenter + d.radius) (d.numFrames - 1)) :
    Running d turn (turn.lastCenter + 1) top (d.finishRest turn run) ∧
      (d.finishRest turn run).out = turn.start + turn.count := by
  have hlast := hl.lastCenter_eq
  apply Loops.foldl_range_induct
    (fun x run => Running d turn (turn.lastCenter + 1) top run ∧ run.out = x) _ h.le_end ⟨h, rfl⟩
  rintro x s hx hlt ⟨hs, rfl⟩
  exact ⟨hs.finish hl hlt (by omega) (by rw [htop, Int.add_sub_cancel]), rfl⟩

/-- Before a center the next frame of the chunk waits for it. -/
structure Waiting (d : ImageData n m P S B) (turn : RollTurn) (e top : Int) (run : Run n m P S) :
    Prop extends Running d turn e top run where
  waits : run.out < turn.start + turn.count → e ≤ turn.lastCenter →
    e ≤ min (run.out + d.radius) (d.numFrames - 1)
  topped : e ≠ turn.firstCenter ∨ turn.carry = true → top = min (e - 1 + d.radius) (d.numFrames - 1)

/-- The window of a center is resident once its uploads are made. -/
theorem Legal.window_resident (hl : Legal d turn) (he : turn.firstCenter ≤ e)
    (he' : e ≤ turn.lastCenter)
    (h : Uploaded d turn (low d turn) (temporalLast e d.radius d.numFrames) run) {frame : Int}
    (h0 : temporalFirst e d.radius ≤ frame) (h1 : frame ≤ temporalLast e d.radius d.numFrames) :
    run.ring (frame % d.rollRing) = d.node frame ∧
      run.referenceRing (frame % d.rollRing) = d.reference frame := by
  have hfirst := hl.firstCenter_eq
  have hlast := hl.lastCenter_eq
  have hr := hl.radius_pos
  rw [temporalFirst_eq] at h0
  have htop := temporalLast_eq e d.radius d.numFrames
  refine h.resident frame ?_ (by omega) h1
  unfold low
  split at hfirst <;> simp only [*, if_true, if_false, Bool.false_eq_true] <;> omega

/-- The slices of a center, on its resident window. -/
theorem Running.accumulate (hl : Legal d turn) (h : Running d turn e top run)
    (he : turn.firstCenter ≤ e) (he' : e ≤ turn.lastCenter)
    (waits : run.out < turn.start + turn.count → e ≤ min (run.out + d.radius) (d.numFrames - 1))
    {work : CenterWork n B} (hwork : d.legacyWork e = .ok work)
    (hup : Uploaded d turn (low d turn) (temporalLast e d.radius d.numFrames) run')
    (hsame : Same run run') :
    run.out < turn.start + turn.count ∧
      d.sliding.Open (d.accumulate e work run') run.out (e + 1) := by
  have hfirst := hl.firstCenter_eq
  have hlast := hl.lastCenter_eq
  have ⟨hr, h0, hcount, hend, _, _⟩ := hl
  have hle := h.le_end
  have hstart := h.start_le
  have hpast := h.past
  have hnear := h.near
  have hreach := h.reach
  -- some frame of the chunk waits, since its last frame does
  have hlt : run.out < turn.start + turn.count := by
    rcases Int.lt_or_eq_of_le hle with hlt | heq
    · exact hlt
    · have := hpast (by omega)
      rw [heq] at this
      omega
  have hw := waits hlt
  have he0 : 0 ≤ e := by
    split at hfirst <;> omega
  refine ⟨hlt, ?_⟩
  rw [accumulate_eq (by rw [hsame.out, temporalFirst_eq, temporalLast_eq]; omega) hwork
    fun frame h0 h1 => (hl.window_resident he he' hup h0 h1).1, hsame.out, hsame.sums]
  have hadd := h.opened.addCenter (by simp only [sliding_radius]; omega) he0
    (by simp only [sliding_radius]; omega) (by simp only [sliding_radius]; omega)
    (by simp only [sliding_last]; omega)
  rw [sliding_radius, sliding_last] at hadd
  rw [temporalFirst_eq, temporalLast_eq,
    show max run.out (max 0 (e - d.radius)) = max run.out (e - d.radius) by omega]
  exact hadd

/-- What a center copies is what the legacy filter copies. -/
theorem Legal.window_eq (hl : Legal d turn) (he : turn.firstCenter ≤ e)
    (he' : e ≤ turn.lastCenter)
    (h : Uploaded d turn (low d turn) (temporalLast e d.radius d.numFrames) run) :
    ((Int.range (temporalFirst e d.radius) (temporalLast e d.radius d.numFrames + 1)).map
        fun frame => run.ring (frame % d.rollRing)) =
      (Int.range (temporalFirst e d.radius)
        (temporalLast e d.radius d.numFrames + 1)).map d.node ∧
    ((Int.range (temporalFirst e d.radius) (temporalLast e d.radius d.numFrames + 1)).map
        fun frame => run.referenceRing (frame % d.rollRing)) =
      (Int.range (temporalFirst e d.radius)
        (temporalLast e d.radius d.numFrames + 1)).map d.reference := by
  constructor
  · refine List.map_congr_left fun frame hmem => ?_
    have := Int.mem_range_iff.mp hmem
    exact (hl.window_resident he he' h (by omega) (by omega)).1
  · refine List.map_congr_left fun frame hmem => ?_
    have := Int.mem_range_iff.mp hmem
    exact (hl.window_resident he he' h (by omega) (by omega)).2

/-- The uploads of a center of the chunk. -/
theorem Running.through (hl : Legal d turn)
    (hg : Staged d turn (fun i _ => i < turn.uploads.length) g) (h : Running d turn e top run)
    (he' : e ≤ turn.lastCenter)
    (hrun : d.uploadThrough turn g (temporalLast e d.radius d.numFrames) run = .ok run') :
    Uploaded d turn (low d turn) (temporalLast e d.radius d.numFrames) run' ∧ Same run run' := by
  have hlast := hl.lastCenter_eq
  have ⟨hr, h0, hcount, hend, _, _⟩ := hl
  have htl := temporalLast_eq e d.radius d.numFrames
  have hlf : d.lastFrame turn.start turn.count =
      min (turn.start + turn.count - 1 + 2 * d.radius) (d.numFrames - 1) := rfl
  have htop := h.top_le
  exact h.toUploaded.uploadThrough hg (by omega) (by omega) hrun

/-- One center keeps the chunk as it should be. -/
theorem Waiting.centerStep (hl : Legal d turn)
    (hg : Staged d turn (fun i _ => i < turn.uploads.length) g) (h : Waiting d turn e top run)
    (he : turn.firstCenter ≤ e) (he' : e ≤ turn.lastCenter)
    (hrun : d.centerStep turn g run e = .ok run') :
    Waiting d turn (e + 1) (temporalLast e d.radius d.numFrames) run' := by
  have ⟨hr, h0, hcount, hend, _, _⟩ := hl
  have htl := temporalLast_eq e d.radius d.numFrames
  obtain ⟨run₁, hthrough, hrun⟩ := Loops.bind_eq_ok.mp hrun
  obtain ⟨work, hwork, hrun⟩ := Loops.bind_eq_ok.mp hrun
  obtain ⟨hup, hsame⟩ := h.toRunning.through hl hg he' hthrough
  obtain ⟨hinput, hreference⟩ := hl.window_eq he he' hup
  rw [hinput, hreference] at hwork hrun
  obtain ⟨hlt, hopen⟩ := h.toRunning.accumulate hl he he' (fun hlt => h.waits hlt he') hwork hup
    hsame
  have hw := h.waits hlt he'
  have hring : d.rollRing = 2 * d.radius + 1 := rfl
  have hout := hsame.out
  have hreach := h.reach
  have hnear := h.near
  have hpast := h.past
  -- the state between the center's slices and the frames it is the last of
  have hmid : Running d turn (e + 1) (temporalLast e d.radius d.numFrames)
      { run₁ with
        sums := d.accumulate e work run₁
        centers := run₁.centers ++ [⟨e, run₁.out, (Int.range (temporalFirst e d.radius)
          (temporalLast e d.radius d.numFrames + 1)).map d.node,
          (Int.range (temporalFirst e d.radius)
            (temporalLast e d.radius d.numFrames + 1)).map d.reference,
          d.accumulate e work run₁⟩] } := by
    constructor
    · exact ⟨hup.uploads, hup.resident⟩
    · exact hout ▸ h.start_le
    · exact hout ▸ h.le_end
    · exact hout ▸ hopen
    · dsimp only; omega
    · dsimp only; omega
    · dsimp only; omega
    · dsimp only; omega
    · omega
    · dsimp only
      rw [hsame.finished, hout, h.finished]
    · dsimp only
      rw [hsame.store, hout]
      exact h.store
    · dsimp only
      rw [List.map_append, hsame.centers, h.centers, Loops.range_snoc he]
      rfl
    · intro center hmem
      rcases List.mem_append.mp hmem with hmem | hmem
      · exact h.right center (hsame.centers ▸ hmem)
      · obtain rfl := List.mem_singleton.mp hmem
        refine ⟨rfl, rfl, fun frame frame' h1 h2 h3 h4 => ?_, fun frame hf hf' => ?_⟩
        · dsimp only at h1 h2 h3 h4
          exact cell_inj (by omega) (by omega)
        dsimp only at hf hf' ⊢
        exact hopen frame (by omega) (by simp only [sliding_radius]; omega)
          (by simp only [sliding_last]; omega)
  have hfinish := hmid.finishThrough hl (by omega)
  rw [Int.add_sub_cancel] at hfinish
  obtain rfl := Except.ok.inj hrun
  refine ⟨hfinish.1, fun hlt _ => hfinish.2 hlt, fun _ => ?_⟩
  rw [htl, Int.add_sub_cancel]

/-! ## How a chunk fails -/

/-- A sample of an upload is an infinity or a NaN. -/
def Nonfinite (d : ImageData n m P S B) (turn : RollTurn) (e : String) : Prop :=
  e = "nss: nonfinite source/reference sample" ∧
    ∃ frame ∈ turn.uploads, ∃ k, d.finite (d.inputs frame k) = false

/-- A sample is not finite, or a center fails as it does in the legacy filter. -/
def Fails (d : ImageData n m P S B) (turn : RollTurn) (e : String) : Prop :=
  Nonfinite d turn e ∨ ∃ center, turn.firstCenter ≤ center ∧ center ≤ turn.lastCenter ∧
    d.legacyWork center = .error e

theorem stageIn_error {error : String} (h : d.stageIn turn g = .error error) :
    Nonfinite d turn error := by
  obtain ⟨before, upload, rest, g₁, hl, -, h⟩ := Loops.foldlM_error h
  obtain ⟨-, k, -, g₂, -, -, h⟩ := Loops.foldlM_error h
  have hmem : upload ∈ turn.uploads.zipIdx := by simp [hl]
  simp only [ImageData.stage] at h
  split at h
  · exact absurd h nofun
  · split at h
    · rename_i hfinite
      exact ⟨(Except.error.inj h).symm, upload.1, List.fst_mem_of_mem_zipIdx hmem, k,
        by simpa using hfinite⟩
    · split at h <;> exact absurd h nofun

theorem uploadThrough_error (hg : Staged d turn (fun i _ => i < turn.uploads.length) g)
    {last : Int} {error : String} (h : d.uploadThrough turn g last run = .error error) :
    Nonfinite d turn error := by
  obtain ⟨-, frame, -, run₁, -, -, h⟩ := Loops.foldlM_error h
  cases hplanes : (List.finRange (n + m)).foldlM
      (fun planes k => do
        let plane ← d.uploadPlane g run₁.uploaded.length k
        return Function.update planes k plane)
      (Fin.append (run₁.ring (frame % d.rollRing))
        (run₁.referenceRing (frame % d.rollRing))) with
  | ok planes =>
    simp only [ImageData.upload, hplanes] at h
    exact absurd h nofun
  | error e =>
    simp only [ImageData.upload, hplanes] at h
    obtain rfl : e = error := Except.error.inj h
    obtain ⟨-, k, -, planes, -, -, h⟩ := Loops.foldlM_error hplanes
    cases hd : g.direct run₁.uploaded.length k with
    | none =>
      simp only [ImageData.uploadPlane, hd] at h
      exact absurd h nofun
    | some plane =>
      obtain ⟨frame', hframe', rfl⟩ := hg.direct _ _ _ hd
      simp only [ImageData.uploadPlane, hd] at h
      split at h
      · rename_i hfinite
        rw [Bool.and_eq_true, Bool.not_eq_true'] at hfinite
        exact ⟨(Except.error.inj h).symm, frame', List.mem_of_getElem? hframe', k, hfinite.2⟩
      · exact absurd h nofun

theorem Waiting.centerStep_error (hl : Legal d turn)
    (hg : Staged d turn (fun i _ => i < turn.uploads.length) g) (h : Waiting d turn e top run)
    (he : turn.firstCenter ≤ e) (he' : e ≤ turn.lastCenter) {error : String}
    (hrun : d.centerStep turn g run e = .error error) : Fails d turn error := by
  simp only [ImageData.centerStep] at hrun
  cases hthrough : d.uploadThrough turn g (temporalLast e d.radius d.numFrames) run with
  | error e' =>
    rw [hthrough] at hrun
    exact .inl (uploadThrough_error hg (hthrough.trans hrun))
  | ok run₁ =>
    obtain ⟨hinput, hreference⟩ := hl.window_eq he he' (h.toRunning.through hl hg he' hthrough).1
    rw [hthrough, Loops.ok_bind, hinput, hreference] at hrun
    refine .inr ⟨e, he, he', ?_⟩
    cases hwork : d.legacyWork e with
    | error e' =>
      simp only [legacyWork] at hwork
      rw [hwork] at hrun
      exact congrArg Except.error (Except.error.inj hrun)
    | ok work =>
      simp only [legacyWork] at hwork
      rw [hwork] at hrun
      exact absurd hrun nofun

/-! ## From chunk to chunk -/

/-- What a chunk that ends at `e` leaves for one that carries on. -/
structure Left (d : ImageData n m P S B) (e : Int) (slot : Slot n m P S) : Prop where
  pos : 1 ≤ e
  opened : d.sliding.Open slot.sums e (min (e - 1 + d.radius) (d.numFrames - 1) + 1)
  resident : ∀ frame, e ≤ frame → frame ≤ min (e - 1 + 2 * d.radius) (d.numFrames - 1) →
    slot.ring (frame % d.rollRing) = d.node frame ∧
      slot.referenceRing (frame % d.rollRing) = d.reference frame

/-- A chunk before its first center, whether it starts afresh or carries on. -/
theorem start_waiting (hl : Legal d turn) (hcarry : turn.carry = true → Left d turn.start slot) :
    Waiting d turn turn.firstCenter (d.firstFrame turn.start turn.carry - 1)
      (d.start turn slot) := by
  have ⟨hr, h0, hcount, hend, _, _⟩ := hl
  have hfirst := hl.firstCenter_eq
  have hlast := hl.lastCenter_eq
  have hups := hl.uploads_eq
  have hout : (d.start turn slot).out = turn.start := rfl
  have huploads : (d.start turn slot).uploaded ++
      Int.range (d.firstFrame turn.start turn.carry - 1 + 1)
        (d.lastFrame turn.start turn.count + 1) = turn.uploads := by
    rw [Int.sub_add_cancel, hups]
    rfl
  have hfinished : (d.start turn slot).finished =
      (Int.range turn.start (d.start turn slot).out).map
        fun frame => ⟨frame, d.ownSum frame, d.node frame⟩ := by
    rw [hout, Loops.range_empty (Int.le_refl _)]
    rfl
  have hcenters : (d.start turn slot).centers.map CenterRun.center =
      Int.range turn.firstCenter turn.firstCenter := by
    rw [Loops.range_empty (Int.le_refl _)]
    rfl
  cases hc : turn.carry with
  | false =>
    rw [hc] at huploads
    have hff : d.firstFrame turn.start false = max 0 (turn.start - 2 * d.radius) := rfl
    have hlow : low d turn = max 0 (turn.start - 2 * d.radius) := by simp [low, hc]
    rw [hc, if_neg (by simp)] at hfirst
    have hopen : d.sliding.Open (d.start turn slot).sums turn.start turn.firstCenter := by
      refine Sliding.open_zero _ (fun _ _ _ _ => ?_) (by simp only [sliding_radius]; omega)
      simp only [ImageData.start, hc]
      rfl
    constructor
    · constructor
      · exact ⟨huploads, fun frame h1 h2 h3 => by omega⟩
      · omega
      · omega
      · exact hopen
      · omega
      · omega
      · intro hlt
        omega
      · intro _
        omega
      · omega
      · exact hfinished
      · intro frame h1 h2
        omega
      · exact hcenters
      · nofun
    · intro _ _
      omega
    · intro hne
      simp [hc] at hne
  | true =>
    rw [hc] at huploads
    have hleft := hcarry hc
    have hff : d.firstFrame turn.start true =
        min (turn.start - 1 + 2 * d.radius) (d.numFrames - 1) + 1 := rfl
    have hlow : low d turn = turn.start := by simp [low, hc]
    rw [hc, if_pos rfl] at hfirst
    have hopen : d.sliding.Open (d.start turn slot).sums turn.start turn.firstCenter := by
      have heq : turn.firstCenter = min (turn.start - 1 + d.radius) (d.numFrames - 1) + 1 := by
        omega
      rw [heq]
      simp only [ImageData.start, hc, if_true]
      exact hleft.opened
    constructor
    · constructor
      · refine ⟨huploads, fun frame h1 h2 h3 => ?_⟩
        exact hleft.resident frame (by omega) (by omega)
      · omega
      · omega
      · exact hopen
      · omega
      · omega
      · intro hlt
        omega
      · intro _
        omega
      · omega
      · exact hfinished
      · intro frame h1 h2
        omega
      · exact hcenters
      · nofun
    · intro _ _
      omega
    · intro _
      omega

/-- What a chunk that was run has done. -/
structure Ran (d : ImageData n m P S B) (turn : RollTurn) (run : Run n m P S) : Prop where
  uploaded : run.uploaded = turn.uploads
  finished : run.finished = (Int.range turn.start (turn.start + turn.count)).map
    fun frame => ⟨frame, d.ownSum frame, d.node frame⟩
  store : ∀ frame, turn.start ≤ frame → frame < turn.start + turn.count →
    run.store (frame - turn.start) = some (d.result frame)
  centers : run.centers.map CenterRun.center = Int.range turn.firstCenter (turn.lastCenter + 1)
  legacy : ∀ center ∈ run.centers, AsLegacy d center

theorem Legal.firstCenter_le (hl : Legal d turn) : turn.firstCenter ≤ turn.lastCenter + 1 := by
  have ⟨hr, h0, hcount, hend, _, _⟩ := hl
  have hfirst := hl.firstCenter_eq
  have hlast := hl.lastCenter_eq
  split at hfirst <;> omega

theorem computeChunk_ok (hl : Legal d turn) (hcarry : turn.carry = true → Left d turn.start slot)
    (h : d.computeChunk turn g slot = .ok run) :
    Ran d turn run ∧ Left d (turn.start + turn.count) run.toSlot := by
  have ⟨hr, h0, hcount, hend, _, _⟩ := hl
  have hfirst := hl.firstCenter_eq
  have hlast := hl.lastCenter_eq
  obtain ⟨g₁, hstage, h⟩ := Loops.bind_eq_ok.mp h
  obtain ⟨run₁, hcenters, h⟩ := Loops.bind_eq_ok.mp h
  obtain rfl := Except.ok.inj h
  obtain ⟨top, hwait⟩ := Loops.foldlM_range_induct
    (fun e run => ∃ top, Waiting d turn e top run) hl.firstCenter_le
    ⟨_, start_waiting hl hcarry⟩
    (fun e s s' he he' ⟨_, hs⟩ hs' =>
      ⟨_, hs.centerStep hl (stageIn_staged hstage) he (by omega) hs'⟩) hcenters
  have htop : top = min (turn.lastCenter + d.radius) (d.numFrames - 1) := by
    rw [hwait.topped, Int.add_sub_cancel]
    cases hc : turn.carry with
    | true => exact .inr rfl
    | false =>
      rw [hc, if_neg (by simp)] at hfirst
      exact .inl (by omega)
  obtain ⟨hrun, hout⟩ := hwait.toRunning.finishRest hl htop
  have hlf : d.lastFrame turn.start turn.count =
      min (turn.start + turn.count - 1 + 2 * d.radius) (d.numFrames - 1) := rfl
  have hlow := low_le hl
  refine ⟨⟨?_, ?_, ?_, hrun.centers, hrun.right⟩, ⟨by omega, ?_, ?_⟩⟩
  · have := hrun.uploads
    rwa [Loops.range_empty (by omega), List.append_nil] at this
  · rw [hrun.finished, hout]
  · exact fun frame h1 h2 => hrun.store frame h1 (by omega)
  · have := hrun.opened
    rwa [hout, show turn.lastCenter = min (turn.start + turn.count - 1 + d.radius)
      (d.numFrames - 1) from hlast] at this
  · exact fun frame h1 h2 => hrun.resident frame (by omega) (by omega) (by omega)

theorem computeChunk_error (hl : Legal d turn)
    (hcarry : turn.carry = true → Left d turn.start slot) {error : String}
    (h : d.computeChunk turn g slot = .error error) : Fails d turn error := by
  simp only [computeChunk] at h
  cases hstage : d.stageIn turn g with
  | error e =>
    rw [hstage] at h
    exact .inl (stageIn_error (hstage.trans (congrArg Except.error (Except.error.inj h))))
  | ok g₁ =>
    rw [hstage, Loops.ok_bind] at h
    cases hcenters : (Int.range turn.firstCenter (turn.lastCenter + 1)).foldlM
        (d.centerStep turn g₁) (d.start turn slot) with
    | ok run =>
      rw [hcenters] at h
      exact absurd h nofun
    | error e =>
      rw [hcenters] at h
      obtain rfl : e = error := Except.error.inj h
      obtain ⟨center, run, h1, h2, hbefore, hfail⟩ := Loops.foldlM_range_error hcenters
      have hstaged := stageIn_staged hstage
      obtain ⟨top, hwait⟩ := Loops.foldlM_range_induct
        (fun e run => ∃ top, Waiting d turn e top run) h1 ⟨_, start_waiting hl hcarry⟩
        (fun e s s' he he' ⟨_, hs⟩ hs' => ⟨_, hs.centerStep hl hstaged he (by omega) hs'⟩) hbefore
      exact hwait.centerStep_error hl hstaged h1 (by omega) hfail

/-! ## The chunks of a slot -/

/-- The chunks of a slot in ticket order, to its buffers and where the last of them ended. A chunk
carries on only when it starts there; one that failed leaves the buffers as they may be, and
ended nowhere. -/
inductive Executed (d : ImageData n m P S B) :
    Slot n m P S → Option Int → List (RollTurn × Run n m P S) → Prop
  | first (slot : Slot n m P S) : Executed d slot none []
  | ran {slot : Slot n m P S} {ended : Option Int} {runs : List (RollTurn × Run n m P S)}
      {turn : RollTurn} {staging : Staging (n + m) P} {run : Run n m P S} :
      Executed d slot ended runs → Legal d turn → (turn.carry = true → ended = some turn.start) →
      d.computeChunk turn staging slot = .ok run →
      Executed d run.toSlot (some (turn.start + turn.count)) (runs ++ [(turn, run)])
  | failed {slot slot' : Slot n m P S} {ended : Option Int}
      {runs : List (RollTurn × Run n m P S)} {turn : RollTurn} {staging : Staging (n + m) P}
      {error : String} :
      Executed d slot ended runs → Legal d turn → (turn.carry = true → ended = some turn.start) →
      d.computeChunk turn staging slot = .error error → Executed d slot' none runs

variable {ended : Option Int} {runs : List (RollTurn × Run n m P S)}

theorem Executed.keeps (h : Executed d slot ended runs) :
    (∀ e, ended = some e → Left d e slot) ∧ ∀ turn run, (turn, run) ∈ runs → Ran d turn run := by
  induction h with
  | first => exact ⟨nofun, nofun⟩
  | ran _ hl hcarry hrun ih =>
    obtain ⟨hran, hleft⟩ := computeChunk_ok hl (fun hc => ih.1 _ (hcarry hc)) hrun
    refine ⟨fun e he => Option.some.inj he ▸ hleft, fun turn run hmem => ?_⟩
    rcases List.mem_append.mp hmem with hmem | hmem
    · exact ih.2 turn run hmem
    · cases List.mem_singleton.mp hmem
      exact hran
  | failed _ _ _ _ ih => exact ⟨nofun, ih.2⟩

/-! ## What a chunk stages and takes -/

theorem Legal.uploads_length (hl : Legal d turn) :
    (turn.uploads.length : Int) ≤ turn.count + 4 * d.radius := by
  have ⟨hr, h0, hcount, hend, _, _⟩ := hl
  have hff : d.firstFrame turn.start turn.carry ≥ turn.start - 2 * d.radius ∨
      d.firstFrame turn.start turn.carry = d.numFrames := by
    unfold firstFrame
    split <;> omega
  have hlf : d.lastFrame turn.start turn.count =
      min (turn.start + turn.count - 1 + 2 * d.radius) (d.numFrames - 1) := rfl
  rw [hl.uploads_eq, Int.range, List.length_map, List.length_range]
  omega

/-- Every plane of every upload has a region of the staging set. -/
theorem Legal.region_lt (hl : Legal d turn) {i : Nat} (hi : i < turn.uploads.length)
    (k : Fin (n + m)) : (region i k : Int) < d.stagingRegions := by
  have hlen := hl.uploads_length
  have hcount := hl.count_le
  have hrow : (region i k : Int) < ((i : Int) + 1) * (n + m) := by
    have hk : (k.1 : Int) < (n : Int) + m := by exact_mod_cast k.2
    simp only [region]
    push_cast
    rw [Int.add_mul]
    omega
  refine Int.lt_of_lt_of_le hrow (Int.mul_le_mul_of_nonneg_right ?_ ?_)
  · have : (i : Int) + 1 ≤ turn.uploads.length := by exact_mod_cast hi
    omega
  · exact_mod_cast Nat.zero_le (n + m)

/-- A request takes only frames that it asked for. -/
theorem taken_requested (hr : 1 ≤ d.radius) (hc : 1 ≤ d.rollingChunk) {frame : Int}
    (h0 : 0 ≤ frame) (hlt : frame < d.numFrames) (carry : Bool) {fn : Int}
    (h : fn ∈ d.taken frame carry) : fn ∈ d.requested frame := by
  have hstart : d.chunkStart frame ≤ frame ∧ frame < d.chunkStart frame + d.rollingChunk ∧
      0 ≤ d.chunkStart frame := by
    have hmod := Int.mul_ediv_add_emod frame d.rollingChunk
    have hpos := Int.emod_nonneg frame (show d.rollingChunk ≠ 0 by omega)
    have hmod' := Int.emod_lt_of_pos frame (show 0 < d.rollingChunk by omega)
    have hdiv := Int.ediv_nonneg h0 (show 0 ≤ d.rollingChunk by omega)
    have hmul := Int.mul_nonneg hdiv (show 0 ≤ d.rollingChunk by omega)
    have hcomm := Int.mul_comm d.rollingChunk (frame / d.rollingChunk)
    unfold chunkStart
    omega
  have hcount : d.chunkCount frame = min d.rollingChunk (d.numFrames - d.chunkStart frame) := rfl
  have hreach : d.rollReach = 2 * d.radius := rfl
  have hlf : d.lastFrame (d.chunkStart frame) (d.chunkCount frame) =
      min (d.chunkStart frame + d.chunkCount frame - 1 + 2 * d.radius) (d.numFrames - 1) := rfl
  have hff : d.chunkStart frame - 2 * d.radius ≤ d.firstFrame (d.chunkStart frame) carry ∧
      0 ≤ d.firstFrame (d.chunkStart frame) carry := by
    unfold firstFrame
    split <;> omega
  rw [requested, Int.mem_range_iff, temporalLast_eq]
  rcases List.mem_append.mp h with h | h
  · have := Int.mem_range_iff.mp h
    omega
  · rw [List.mem_singleton.mp h]
    omega

/-- **Rolling equals the legacy slices.** Whatever chunks a slot has run, each has finished every
frame of its chunk once, in order, from exactly its own centers' legacy slices, and copied and
finished resident frames only; its uploads are the planned ones and have their regions; a chunk
fails only where a sample is not finite or the legacy filter fails too; and a request takes only
frames that it asked for. -/
theorem Executed.legacy_slices (h : Executed d slot ended runs) :
    (∀ turn run, (turn, run) ∈ runs → Ran d turn run) ∧
    (∀ turn staging error, Legal d turn → (turn.carry = true → ended = some turn.start) →
      d.computeChunk turn staging slot = .error error → Fails d turn error) ∧
    (∀ turn, Legal d turn → (turn.uploads.length : Int) ≤ turn.count + 4 * d.radius ∧
      ∀ i < turn.uploads.length, ∀ k : Fin (n + m), (region i k : Int) < d.stagingRegions) ∧
    ∀ frame carry, 1 ≤ d.radius → 1 ≤ d.rollingChunk → 0 ≤ frame → frame < d.numFrames →
      ∀ fn ∈ d.taken frame carry, fn ∈ d.requested frame := by
  obtain ⟨hleft, hran⟩ := h.keeps
  refine ⟨hran, ?_, ?_, ?_⟩
  · intro turn staging error hl hcarry herror
    exact computeChunk_error hl (fun hc => hleft _ (hcarry hc)) herror
  · exact fun turn hl => ⟨hl.uploads_length, fun i hi k => hl.region_lt hi k⟩
  · exact fun frame carry hr hc h0 hlt fn hfn => taken_requested hr hc h0 hlt carry hfn

/-- A clip of five frames of one plane whose samples are their frame numbers; center 3 is left
alone. -/
def counting : ImageData 1 0 Int (List (Int × Int)) (Int × Int) where
  radius := 1
  numFrames := 5
  rollingChunk := 2
  gpu := false
  estimate := true
  unfiltered _ := false
  node frame _ := frame
  reference _ := nofun
  pinned frame _ := frame % 2 == 0
  finite _ := true
  runCenter input _ center :=
    let planes := input.map (· 0)
    .ok ⟨decide (planes[center.toNat]? = some 3),
      fun _ t => (planes.getD center.toNat 0, planes.getD t.toNat 0)⟩
  zero := []
  accumulateIdentity sums plane := sums ++ [(plane, plane)]
  accumulateSlice sums slice := sums ++ [slice]
  aggregateFinish sums source := sums.length * 10 + source

/-- A slot and a staging set before the first chunk. -/
def blank : Slot 1 0 Int (List (Int × Int)) := ⟨fun _ _ => -1, fun _ => nofun, fun _ _ => [(9, 9)]⟩

def emptyStaging : Staging (1 + 0) Int := ⟨fun _ => 0, fun _ _ => none⟩

theorem counting_legal {start count : Int} (h0 : 0 ≤ start) (h1 : 1 ≤ count) (h2 : count ≤ 2)
    (h5 : start + count ≤ 5) (carry : Bool) : Legal counting (counting.rollTurn start count carry) :=
  ⟨by decide, h0, h1, h5, h2, rfl⟩

/-- A fresh chunk and one that carries on from it. -/
theorem counting_carried : ∃ run run',
    counting.computeChunk (counting.rollTurn 0 2 false) emptyStaging blank = .ok run ∧
    counting.computeChunk (counting.rollTurn 2 2 true) emptyStaging run.toSlot = .ok run' ∧
    Ran counting (counting.rollTurn 0 2 false) run ∧
    Ran counting (counting.rollTurn 2 2 true) run' := by
  have first : Legal counting (counting.rollTurn 0 2 false) :=
    counting_legal (by decide) (by decide) (by decide) (by decide) false
  have second : Legal counting (counting.rollTurn 2 2 true) :=
    counting_legal (by decide) (by decide) (by decide) (by decide) true
  obtain ⟨run, hrun⟩ : ∃ run, counting.computeChunk (counting.rollTurn 0 2 false) emptyStaging
      blank = .ok run := ⟨_, rfl⟩
  have executed := (Executed.first blank).ran first nofun hrun
  obtain ⟨run', hrun'⟩ : ∃ run', counting.computeChunk (counting.rollTurn 2 2 true) emptyStaging
      run.toSlot = .ok run' := by
    cases h : counting.computeChunk (counting.rollTurn 2 2 true) emptyStaging run.toSlot with
    | ok run' => exact ⟨run', rfl⟩
    | error error =>
      rcases executed.legacy_slices.2.1 _ _ _ second (fun _ => rfl) h with
        ⟨_, _, _, _, hfinite⟩ | ⟨_, _, _, hwork⟩
      · cases hfinite
      · cases hwork
  have hran := (executed.ran second (fun _ => rfl) hrun').legacy_slices.1
  exact ⟨run, run', hrun, hrun', hran _ _ (by simp), hran _ _ (by simp)⟩

end ImageData

end NssFactory.Cuda.Image
