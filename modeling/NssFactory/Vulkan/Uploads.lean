import NssFactory.Gpu.RollPlan

/-!
# The source ring of a Vulkan rolling state

`vulkan/common/group_driver.cpp` records all uploads of a chunk before its kernels, and the
uploads of a chunk may run beside the kernels of the chunk before it on the slot's other lane.
`srcRing` is what the ring has to hold for that; `Life` is a rolling state with the turns that
are planned on it and recorded in ticket order.

`Life.uploads_safe` is the result: no check fails, a chunk's kernels find every source frame
they read, and uploads that do not wait leave alone every cell that the chunk before reads.
-/

namespace NssFactory.Vulkan

open Rolling

structure Driver (P : Type*) extends Geometry where
  name : String
  rollingChunk : Int
  clip : Nat → Int → P

/-- The source buffers of a rolling state, and the frame in each of them. -/
structure RollState (P : Type*) where
  resident : Int → Int
  src : Int → P

/-- A planned chunk of a unit. `waitUpload`: its uploads wait for the kernels before them. -/
structure RollTurn where
  plane : Nat
  start : Int
  count : Int
  carry : Bool
  waitUpload : Bool
  uploads : List Int

variable {P : Type*}

namespace Driver

variable (d : Driver P)

def chunkWindow : Int := d.rollingChunk + 2 * d.rollReach

/-- The source buffers of a rolling state. -/
def srcRing : Int := max (2 * d.rollingChunk + d.rollReach) d.chunkWindow

def errorPrefix : String := "nss_vk." ++ d.name ++ ": "

/-- The uploads of a unit, recorded before its kernels. -/
def recordUploads (turn : RollTurn) (r : RollState P) : RollState P :=
  turn.uploads.foldl
    (fun r fn =>
      { src := Function.update r.src (fn % d.srcRing) (d.clip turn.plane fn)
        resident := Function.update r.resident (fn % d.srcRing) fn })
    (if turn.carry then r else { r with resident := fun _ => -1 })

/-- The window frames of `center` are on the device. -/
def check (r : RollState P) (center : Int) : Except String Unit :=
  (d.windowFrames center).forM fun fn =>
    if r.resident (fn % d.srcRing) ≠ fn then
      .error (d.errorPrefix ++ "rolling plan and device state disagree")
    else .ok ()

/-- What `RollRun` checks in each call of the walk. -/
def visit (r : RollState P) : Visit → Except String Unit
  | .basicCenter center _ => d.check r center
  | .basicFrame _ => .ok ()
  | .center center _ => if d.twoStage then .ok () else d.check r center
  | .output _ => .ok ()

/-- The state when the kernels of a unit are recorded. -/
def upload (turn : RollTurn) (r : RollState P) : RollState P :=
  if turn.uploads = [] then r else d.recordUploads turn r

/-- One unit of `queue_units`: its uploads, then the calls of its walk. -/
def queueUnit (turn : RollTurn) (r : RollState P) : Except String (RollState P) :=
  ((d.walkChunk turn.start turn.count turn.carry).forM (d.visit (d.upload turn r))).map
    fun _ => d.upload turn r

end Driver

/-- A rolling state: what its plans know, the turns that wait, the device, and the turn whose
kernels were recorded last. -/
structure Life (P : Type*) where
  plane : Option Nat
  nextStart : Int
  promised : Int → Int
  freshLast : Bool
  waiting : List RollTurn
  device : RollState P
  running : Option RollTurn

/-- A request plans a chunk (`prefer`: its slot is not too far behind to carry on), or the next
turn is recorded. -/
inductive Event where
  | plan (plane : Nat) (start count : Int) (prefer : Bool)
  | record

/-- The chunks of a driver are no longer than `rolling_chunk`. -/
def Event.Legal (d : Driver P) : Event → Prop
  | .plan _ start count _ => d.Legal start count ∧ count ≤ d.rollingChunk
  | .record => True

namespace Life

variable (d : Driver P) (l : Life P)

def init (device : RollState P) : Life P where
  plane := none
  nextStart := -1
  promised := fun _ => -1
  freshLast := true
  waiting := []
  device := { device with resident := fun _ => -1 }
  running := none

def carries (plane : Nat) (start : Int) (prefer : Bool) : Bool :=
  prefer && decide (l.plane = some plane ∧ l.nextStart = start)

def planTurn (plane : Nat) (start count : Int) (prefer : Bool) : Life P :=
  let carry := l.carries plane start prefer
  let planned := d.plan d.srcRing start count carry l.promised
  { l with
    plane := some plane
    nextStart := start + count
    promised := planned.promised
    freshLast := !carry
    waiting := l.waiting ++
      [⟨plane, start, count, carry, !carry || l.freshLast, planned.uploads⟩] }

def step (l : Life P) : Event → Except String (Life P)
  | .plan plane start count prefer => .ok (l.planTurn d plane start count prefer)
  | .record =>
    match l.waiting with
    | [] => .ok l
    | turn :: rest => do
      let device ← d.queueUnit turn l.device
      return { l with waiting := rest, device := device, running := some turn }

end Life

/-! ## The invariant -/

/-- A turn the driver can plan behind `last`. -/
structure Follows (d : Driver P) (last : Option RollTurn) (turn : RollTurn) : Prop where
  chunk : d.Legal turn.start turn.count
  count_le : turn.count ≤ d.rollingChunk
  carried : turn.carry = true →
    ∃ t, last = some t ∧ t.plane = turn.plane ∧ t.start + t.count = turn.start
  waits : turn.waitUpload = false → turn.carry = true ∧ ∀ t, last = some t → t.carry = true

/-- The turns that wait behind `last`, over a ring that holds `cells`. -/
inductive Queue (d : Driver P) :
    Option RollTurn → (Int → Int) → List RollTurn → Option RollTurn → (Int → Int) → Prop
  | nil (last : Option RollTurn) (cells : Int → Int) : Queue d last cells [] last cells
  | cons {last last' : Option RollTurn} {cells cells' : Int → Int} {turn : RollTurn}
      {rest : List RollTurn} : Follows d last turn →
      turn.uploads = (d.plan d.srcRing turn.start turn.count turn.carry cells).uploads →
      Queue d (some turn) (d.plan d.srcRing turn.start turn.count turn.carry cells).promised
        rest last' cells' →
      Queue d last cells (turn :: rest) last' cells'

/-- What the chunk of a turn leaves in the ring. -/
structure Left (d : Driver P) (turn : RollTurn) (r : RollState P) : Prop where
  chunk : d.Legal turn.start turn.count
  count_le : turn.count ≤ d.rollingChunk
  carried : turn.carry = true → 1 ≤ turn.start
  held : Holds d.srcRing (turn.start + turn.count)
    (min (turn.start + turn.count - 1 + d.rollReach) d.last) r.resident
  known : ∀ F, 0 ≤ F → r.resident (F % d.srcRing) = F →
    r.src (F % d.srcRing) = d.clip turn.plane F

/-- A turn planned over the ring that the device holds. -/
structure Planned (d : Driver P) (turn : RollTurn) (r : RollState P) : Prop where
  chunk : d.Legal turn.start turn.count
  count_le : turn.count ≤ d.rollingChunk
  left : turn.carry = true →
    ∃ t, Left d t r ∧ t.plane = turn.plane ∧ t.start + t.count = turn.start
  uploads_eq : turn.uploads =
    (d.plan d.srcRing turn.start turn.count turn.carry r.resident).uploads

section Planned

variable {d : Driver P} {turn : RollTurn} {r : RollState P} {start count : Int} {carry : Bool}

/-- The ring holds everything a chunk reads at once. -/
theorem top_lt_oldest (carry : Bool) (hl : d.Legal start count) (hcount : count ≤ d.rollingChunk) :
    min (start + count - 1 + d.rollReach) d.last - d.srcRing < d.oldest start carry := by
  have hcount := hl.count_pos
  simp only [Driver.srcRing, Driver.chunkWindow, Geometry.oldest]
  split <;> omega

theorem window_lt_ring (hl : d.Legal start count) (hcount : count ≤ d.rollingChunk) :
    2 * d.radius < d.srcRing := by
  have hr := hl.radius_pos
  have hcount := hl.count_pos
  have hreach := d.rollReach_eq
  have hreach' : 2 * d.radius ≤ d.rollReach := by
    split at hreach <;> omega
  simp only [Driver.srcRing, Driver.chunkWindow]
  omega

theorem Planned.carried (h : Planned d turn r) : turn.carry = true → 1 ≤ turn.start := by
  intro hc
  obtain ⟨t, hleft, -, hend⟩ := h.left hc
  have := hleft.chunk.start_nonneg
  have := hleft.chunk.count_pos
  omega

theorem Planned.fills (h : Planned d turn r) :
    Holds d.srcRing (d.oldest turn.start turn.carry)
        (min (turn.start + turn.count - 1 + d.rollReach) d.last)
        (d.plan d.srcRing turn.start turn.count turn.carry r.resident).promised ∧
      ∀ F ∈ turn.uploads, (begin d.toGeometry turn.start turn.count turn.carry).top d.toGeometry
          turn.start turn.count turn.carry < F ∧
        F ≤ min (turn.start + turn.count - 1 + d.rollReach) d.last := by
  rw [h.uploads_eq]
  refine plan_fills h.chunk h.carried (window_lt_ring h.chunk h.count_le) fun hc => ?_
  obtain ⟨t, hleft, -, hend⟩ := h.left hc
  have hheld := hleft.held
  rwa [hend] at hheld

/-- The uploads of a chunk span less than the ring. -/
theorem Planned.uploads_range (h : Planned d turn r) :
    ∀ F ∈ turn.uploads, d.oldest turn.start turn.carry ≤ F ∧
      F < d.oldest turn.start turn.carry + d.srcRing := by
  intro F hF
  have hrange := h.fills.2 F hF
  have htop := top_lt_oldest turn.carry h.chunk h.count_le
  have hbegin : d.oldest turn.start turn.carry - 1 ≤ (begin d.toGeometry turn.start turn.count
      turn.carry).top d.toGeometry turn.start turn.count turn.carry := by
    cases hc : turn.carry with
    | false => rw [top_begin_fresh h.chunk]
    | true =>
      have := h.chunk.end_le
      have := h.chunk.count_pos
      have hlst : d.last = d.numFrames - 1 := rfl
      have := rollReach_nonneg h.chunk
      rw [top_begin_carry h.chunk]
      simp only [Geometry.oldest, if_true]
      omega
  omega

theorem recordUploads_eq : d.recordUploads turn r =
    { resident := putAll d.srcRing id turn.uploads
        (if turn.carry then r.resident else fun _ => -1)
      src := putAll d.srcRing (d.clip turn.plane) turn.uploads r.src } := by
  have key : ∀ (us : List Int) (r : RollState P), us.foldl
      (fun r fn =>
        ({ src := Function.update r.src (fn % d.srcRing) (d.clip turn.plane fn)
           resident := Function.update r.resident (fn % d.srcRing) fn } : RollState P)) r =
      { resident := putAll d.srcRing id us r.resident
        src := putAll d.srcRing (d.clip turn.plane) us r.src } := by
    intro us
    induction us with
    | nil => intro r; rfl
    | cons u us ih => intro r; rw [List.foldl_cons, ih]; rfl
  rw [Driver.recordUploads, key]
  split <;> rfl

/-- After its uploads the ring is the planned one. -/
theorem Planned.resident (h : Planned d turn r) : (d.upload turn r).resident =
    (d.plan d.srcRing turn.start turn.count turn.carry r.resident).promised := by
  have hheld := h.fills.1
  rw [plan_promised, ← h.uploads_eq] at hheld ⊢
  rw [Driver.upload]
  split
  · rename_i hnil
    rw [hnil] at hheld ⊢
    cases hc : turn.carry with
    | true => rfl
    | false =>
      -- a chunk that starts afresh uploads the first frame it reads
      have hl := h.chunk
      have hcount := hl.count_pos
      have hstart := hl.start_nonneg
      have hend := hl.end_le
      have hlst : d.last = d.numFrames - 1 := rfl
      have hreach := rollReach_nonneg hl
      have htop := top_lt_oldest turn.carry hl h.count_le
      have hold : d.oldest turn.start turn.carry = max 0 (turn.start - d.rollReach) := by
        simp [Geometry.oldest, hc]
      have hfirst := hheld (d.oldest turn.start turn.carry) (Int.le_refl _) (by omega) htop
      simp only [hc, putAll, List.foldl_nil, Bool.false_eq_true, if_false] at hfirst
      rw [← hc] at hfirst
      omega
  · rw [recordUploads_eq]

/-- After its uploads the ring holds what the unit's frames are said to be. -/
theorem Planned.known (h : Planned d turn r) {F : Int} (h0 : 0 ≤ F)
    (hF : (d.upload turn r).resident (F % d.srcRing) = F) :
    (d.upload turn r).src (F % d.srcRing) = d.clip turn.plane F := by
  have hcells := hF
  rw [h.resident, plan_promised, ← h.uploads_eq] at hcells
  have hdist : ∀ p ∈ turn.uploads, ∀ q ∈ turn.uploads, p % d.srcRing = q % d.srcRing → p = q :=
    fun p hp q hq hcell => cell_inj (by have := h.uploads_range p hp; have := h.uploads_range q hq; omega)
      (by have := h.uploads_range p hp; have := h.uploads_range q hq; omega) hcell
  rcases putAll_id_cases hdist hcells with hw | ⟨hne, hheld⟩
  · rw [Driver.upload, if_neg (List.ne_nil_of_mem hw), recordUploads_eq]
    simp only
    rw [putAll_cell fun p hp => hdist p hp F hw, if_pos hw]
  · have hc : turn.carry = true := by
      by_contra hc
      rw [if_neg hc] at hheld
      omega
    rw [if_pos hc] at hheld
    obtain ⟨t, hleft, hplane, -⟩ := h.left hc
    have hsrc := hleft.known F h0 hheld
    rw [hplane] at hsrc
    rw [Driver.upload]
    split
    · exact hsrc
    · rw [recordUploads_eq]
      simp only
      rw [putAll_of_ne hne, hsrc]

/-- The kernels of a chunk find every source frame they read. -/
theorem Planned.reads (h : Planned d turn r) {v : Visit}
    (hv : v ∈ d.walkChunk turn.start turn.count turn.carry) {F : Int} (hF : F ∈ d.reads v) :
    (d.upload turn r).resident (F % d.srcRing) = F ∧
      (d.upload turn r).src (F % d.srcRing) = d.clip turn.plane F := by
  have hrange := walkChunk_reads h.chunk h.carried hv hF
  have htop := top_lt_oldest turn.carry h.chunk h.count_le
  have h0 : 0 ≤ d.oldest turn.start turn.carry := by
    have := h.chunk.start_nonneg
    simp only [Geometry.oldest]
    split <;> omega
  have hres : (d.upload turn r).resident (F % d.srcRing) = F := by
    rw [h.resident]
    exact h.fills.1 F hrange.1 hrange.2 (by omega)
  exact ⟨hres, h.known (by omega) hres⟩

/-- No check fails. -/
theorem Planned.queueUnit (h : Planned d turn r) :
    d.queueUnit turn r = .ok (d.upload turn r) := by
  have hcheck : ∀ v ∈ d.walkChunk turn.start turn.count turn.carry,
      d.visit (d.upload turn r) v = .ok () := by
    intro v hv
    have hwindow : ∀ c, d.reads v = d.windowFrames c → d.check (d.upload turn r) c = .ok () := by
      intro c hc
      refine Loops.forM_eq_ok.mpr fun F hF => ?_
      rw [if_neg (not_not.mpr (h.reads hv (hc ▸ hF)).1)]
    cases v with
    | basicCenter c next => exact hwindow c rfl
    | basicFrame => rfl
    | center c next =>
      simp only [Driver.visit]
      split
      · rfl
      · exact hwindow c rfl
    | output => rfl
  rw [Driver.queueUnit, Loops.forM_eq_ok.mpr hcheck]
  rfl

theorem Planned.leaves (h : Planned d turn r) : Left d turn (d.upload turn r) := by
  have hcount := h.chunk.count_pos
  have hreach := rollReach_nonneg h.chunk
  refine ⟨h.chunk, h.count_le, h.carried, ?_, fun F h0 hF => h.known h0 hF⟩
  rw [h.resident]
  refine h.fills.1.mono ?_
  have := h.chunk.start_nonneg
  simp only [Geometry.oldest]
  split <;> omega

end Planned

/-! ## Every life -/

/-- A life whose plans and device agree. -/
structure Agrees (d : Driver P) (l : Life P) (last : Option RollTurn) : Prop where
  left : ∀ t, l.running = some t → Left d t l.device
  queue : Queue d l.running l.device.resident l.waiting last l.promised
  plane_eq : l.plane = last.map (·.plane)
  nextStart_eq : ∀ t, last = some t → l.nextStart = t.start + t.count
  fresh_eq : l.freshLast = last.all (fun t => !t.carry)

section Agrees

variable {d : Driver P} {l : Life P} {last last' : Option RollTurn} {turn : RollTurn}
variable {cells cells' : Int → Int} {ts : List RollTurn}

theorem Queue.snoc (h : Queue d last cells ts last' cells') (hf : Follows d last' turn)
    (hu : turn.uploads = (d.plan d.srcRing turn.start turn.count turn.carry cells').uploads) :
    Queue d last cells (ts ++ [turn]) (some turn)
      (d.plan d.srcRing turn.start turn.count turn.carry cells').promised := by
  induction h with
  | nil => exact .cons hf hu (.nil _ _)
  | cons hf' hu' _ ih => exact .cons hf' hu' (ih hf hu)

theorem agrees_init (device : RollState P) : Agrees d (Life.init device) none where
  left _ h := nomatch h
  queue := .nil _ _
  plane_eq := rfl
  nextStart_eq _ h := nomatch h
  fresh_eq := rfl

theorem Agrees.plan (h : Agrees d l last) (plane : Nat) {start count : Int} (prefer : Bool)
    (hl : d.Legal start count) (hcount : count ≤ d.rollingChunk) :
    ∃ last', Agrees d (l.planTurn d plane start count prefer) last' := by
  refine ⟨some ⟨plane, start, count, l.carries plane start prefer,
    !l.carries plane start prefer || l.freshLast, _⟩, h.left, h.queue.snoc ⟨hl, hcount, ?_, ?_⟩ rfl,
    rfl, ?_, rfl⟩
  · intro hc
    simp only [Life.carries, Bool.and_eq_true, decide_eq_true_eq] at hc
    obtain ⟨-, hplane, hstart⟩ := hc
    rw [h.plane_eq, Option.map_eq_some_iff] at hplane
    obtain ⟨t, ht, hp⟩ := hplane
    exact ⟨t, ht, hp, by rw [← h.nextStart_eq t ht, hstart]⟩
  · intro hw
    simp only [Bool.or_eq_false_iff, Bool.not_eq_false'] at hw
    refine ⟨hw.1, fun t ht => ?_⟩
    have hfresh := hw.2
    rw [h.fresh_eq, ht] at hfresh
    simpa using hfresh
  · rintro _ ⟨⟩
    rfl

theorem Agrees.follows (h : Agrees d l last) {rest : List RollTurn}
    (hw : l.waiting = turn :: rest) :
    Follows d l.running turn ∧ Planned d turn l.device := by
  have hq := h.queue
  rw [hw] at hq
  cases hq with
  | cons hf hu _ =>
    refine ⟨hf, ⟨hf.chunk, hf.count_le, fun hc => ?_, hu⟩⟩
    obtain ⟨t, ht, hplane, hend⟩ := hf.carried hc
    exact ⟨t, h.left t ht, hplane, hend⟩

theorem Agrees.record (h : Agrees d l last) {rest : List RollTurn}
    (hw : l.waiting = turn :: rest) :
    ∃ l', l.step d .record = .ok l' ∧ Agrees d l' last := by
  have hplanned := (h.follows hw).2
  have hq := h.queue
  rw [hw] at hq
  cases hq with
  | cons hf hu hrest =>
    refine ⟨{ l with waiting := rest, device := d.upload turn l.device, running := some turn },
      ?_, ?_, ?_, h.plane_eq, h.nextStart_eq, h.fresh_eq⟩
    · simp only [Life.step, hw, hplanned.queueUnit]
      rfl
    · rintro _ ⟨⟩
      exact hplanned.leaves
    · simp only
      rw [hplanned.resident]
      exact hrest

theorem Agrees.events (h : Agrees d l last) {es : List Event} (hl : ∀ e ∈ es, e.Legal d) :
    ∃ l' last', es.foldlM (Life.step d) l = .ok l' ∧ Agrees d l' last' := by
  induction es generalizing l last with
  | nil => exact ⟨l, last, rfl, h⟩
  | cons e es ih =>
    have hl' := fun e' he' => hl e' (List.mem_cons_of_mem _ he')
    cases e with
    | plan plane start count prefer =>
      obtain ⟨hchunk, hcount⟩ := hl _ List.mem_cons_self
      obtain ⟨last', h'⟩ := h.plan plane prefer hchunk hcount
      exact ih h' hl'
    | record =>
      cases hw : l.waiting with
      | nil =>
        have hstep : l.step d .record = .ok l := by simp [Life.step, hw]
        rw [List.foldlM_cons, hstep]
        exact ih h hl'
      | cons turn rest =>
        obtain ⟨l', hstep, h'⟩ := h.record hw
        rw [List.foldlM_cons, hstep]
        exact ih h' hl'

/-- Uploads that do not wait spare what the chunk before reads. -/
theorem Follows.spares {prev : Option RollTurn} {r : RollState P} (hf : Follows d prev turn)
    (hp : Planned d turn r) (hleft : ∀ t, prev = some t → Left d t r)
    (hw : turn.waitUpload = false) :
    ∃ t, prev = some t ∧ ∀ F ∈ turn.uploads, ∀ v ∈ d.walkChunk t.start t.count t.carry,
      ∀ G ∈ d.reads v, F % d.srcRing ≠ G % d.srcRing := by
  obtain ⟨hc, hprev⟩ := hf.waits hw
  obtain ⟨t, ht, -, hend⟩ := hf.carried hc
  have htc := hprev t ht
  have hl := hleft t ht
  refine ⟨t, ht, fun F hF v hv G hG => ?_⟩
  have hG := walkChunk_reads hl.chunk hl.carried hv hG
  have hF := hp.fills.2 F hF
  rw [hc, top_begin_carry hp.chunk] at hF
  rw [htc, show d.oldest t.start true = t.start from rfl] at hG
  have h1 := hl.count_le
  have h2 := hp.count_le
  have hring : 2 * d.rollingChunk + d.rollReach ≤ d.srcRing := by
    simp only [Driver.srcRing]
    omega
  exact cell_ne (by omega) (by omega) (by omega)

/-- **The ring is safe with two lanes in flight.** Planning and recording a state's chunks in
any order, no check fails; the kernels of a chunk find every source frame they read; and a
chunk whose uploads do not wait writes no cell that the chunk before it reads. -/
theorem Life.uploads_safe (device : RollState P) (es : List Event) (hl : ∀ e ∈ es, e.Legal d) :
    ∃ l, es.foldlM (Life.step d) (Life.init device) = .ok l ∧
      ∀ turn rest, l.waiting = turn :: rest →
        (∀ v ∈ d.walkChunk turn.start turn.count turn.carry, ∀ F ∈ d.reads v,
          (d.upload turn l.device).resident (F % d.srcRing) = F ∧
            (d.upload turn l.device).src (F % d.srcRing) = d.clip turn.plane F) ∧
        (turn.waitUpload = false → ∃ prev, l.running = some prev ∧
          ∀ F ∈ turn.uploads, ∀ v ∈ d.walkChunk prev.start prev.count prev.carry,
            ∀ G ∈ d.reads v, F % d.srcRing ≠ G % d.srcRing) := by
  obtain ⟨l, last, hrun, hagrees⟩ := (agrees_init device).events hl
  refine ⟨l, hrun, fun turn rest hw => ?_⟩
  obtain ⟨hf, hp⟩ := hagrees.follows hw
  exact ⟨fun v hv F hF => hp.reads hv hF, hf.spares hp hagrees.left⟩

/-- A clip of twelve frames in chunks of two. -/
def counting : Driver Int where
  radius := 1
  numFrames := 12
  twoStage := false
  name := "BM3D"
  rollingChunk := 2
  clip _ f := f

/-- A chunk that starts afresh, and two that carry on; the first two are recorded. -/
def threeChunks : List Event :=
  [.plan 0 0 2 true, .plan 0 2 2 true, .plan 0 4 2 true, .record, .record]

/-- The third chunk's kernels find the frames of their windows. -/
theorem threeChunks_safe :
    ∃ l, threeChunks.foldlM (Life.step counting) (Life.init ⟨fun _ => 7, fun _ => 0⟩) = .ok l ∧
      ∀ turn rest, l.waiting = turn :: rest → turn.waitUpload = false →
        ∃ prev, l.running = some prev ∧ ∀ F ∈ turn.uploads,
          ∀ v ∈ counting.walkChunk prev.start prev.count prev.carry,
            ∀ G ∈ counting.reads v, F % 6 ≠ G % 6 := by
  have hlegal : ∀ e ∈ threeChunks, e.Legal counting := by
    intro e he
    simp only [threeChunks, List.mem_cons, List.not_mem_nil, or_false] at he
    rcases he with rfl | rfl | rfl | rfl | rfl
    · exact ⟨⟨by decide, by decide, by decide, by decide⟩, by decide⟩
    · exact ⟨⟨by decide, by decide, by decide, by decide⟩, by decide⟩
    · exact ⟨⟨by decide, by decide, by decide, by decide⟩, by decide⟩
    · trivial
    · trivial
  obtain ⟨l, hl, hsafe⟩ := Life.uploads_safe (d := counting) ⟨fun _ => 7, fun _ => 0⟩ threeChunks
    hlegal
  exact ⟨l, hl, fun turn rest hw => (hsafe turn rest hw).2⟩

end Agrees

end NssFactory.Vulkan
