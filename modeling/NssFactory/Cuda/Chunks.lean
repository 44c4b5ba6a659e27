import NssFactory.Cuda.Schedule

/-!
# The chunks of a CUDA rolling state

A rolling state takes its turns in ticket order: each is planned (`RollTurn::RollTurn`) over
what the ones before it promise, and run later, by `queuePlane`, over what they left. `Life` is
such a state with the turns that wait; planning and running interleave in any order.

* `Life.run_right`: in every life the turns are run without an error, and every run writes
  each frame of its chunk from exactly its own centers.
* `Life.on_plan`: every run makes exactly the planned uploads, and every source frame is
  resident when it is read.
-/

namespace NssFactory.Cuda

open Rolling

variable {n : Nat} {P S B : Type*}

/-! ## From chunk to chunk -/

/-- Where the walk of a chunk that ends at `e` ends, and one that carries on from it begins. -/
def boundary (d : Geometry) (e : Int) : Cursor where
  f := min (e - 1 + d.radius) d.last + 1
  frame := min (e - 1 + 2 * d.radius) d.last + 1
  center := min (e - 1 + 3 * d.radius) d.last + 1
  out := e

/-- What a chunk of a plane that ends at `e` leaves for one that carries on. -/
structure Left (d : Driver n P S B) (plane : Nat) (e : Int) (s : RollState n P S) : Prop where
  pos : 1 ≤ e
  kept : Kept d plane e (min (e - 1 + d.rollReach) d.last) (boundary d.toGeometry e) s

section Chunk

variable {d : Driver n P S B} {turn : RollTurn} {s : PlaneRun n P S} {state : RollState n P S}
variable {c : Cursor}

/-- The cells of a state that starts afresh. -/
structure Cleared (d : Driver n P S B) (plane : Nat) (cells : Int) (s : RollState n P S) :
    Prop where
  resident : s.resident = fun _ => -1
  basicSums : d.twoStage = true → (d.planes plane).basicActive = true → ∀ ch,
    d.basicOut ch = true → ∀ i, 0 ≤ i → i < cells →
      s.basicAcc ch i = (d.planes plane).basicSums.zero
  sums : ∀ ch, d.channelOut ch = true → ∀ i, 0 ≤ i → i < cells →
    s.acc ch i = (d.planes plane).sums.zero

theorem start_fresh (state : RollState n P S) (hr : 0 ≤ d.radius) (hfresh : turn.carry = false) :
    Cleared d turn.plane d.ntemp (PlaneRun.start d turn state).toRollState ∧
      (PlaneRun.start d turn state).staged = 0 ∧ (PlaneRun.start d turn state).uploaded = [] ∧
      (PlaneRun.start d turn state).written = [] := by
  have hnt : d.ntemp = 2 * d.radius + 1 := rfl
  simp only [PlaneRun.start, hfresh, Bool.false_eq_true, if_false]
  apply Loops.foldl_range_induct (fun x (s : PlaneRun n P S) =>
    Cleared d turn.plane x s.toRollState ∧ s.staged = 0 ∧ s.uploaded = [] ∧ s.written = [])
  · omega
  · refine ⟨⟨rfl, fun _ _ _ _ i h0 h1 => ?_, fun _ _ i h0 h1 => ?_⟩, rfl, rfl, rfl⟩ <;> omega
  · rintro x s hx0 hxn ⟨hcl, hst, hup, hwr⟩
    refine ⟨⟨hcl.resident, ?_, ?_⟩, hst, hup, hwr⟩
    · intro h2 hactive ch hch i h0 h1
      simp only [PlaneRun.clearSums, PlaneRun.clearBasic, h2, hactive, hch, Bool.and_self, if_true]
      by_cases hi : i = x
      · rw [hi, Function.update_self]
      · rw [Function.update_of_ne hi]
        exact hcl.basicSums h2 hactive ch hch i h0 (by omega)
    · intro ch hch i h0 h1
      simp only [PlaneRun.clearSums, PlaneRun.clearBasic, hch, Bool.not_true, Bool.and_false,
        Bool.false_eq_true, if_false]
      by_cases hi : i = x
      · rw [hi, Function.update_self]
      · rw [Function.update_of_ne hi]
        exact hcl.sums ch hch i h0 (by omega)

/-- Nothing is uploaded or written before the walk. -/
theorem start_logs (turn : RollTurn) (state : RollState n P S) (hr : 0 ≤ d.radius) :
    (PlaneRun.start d turn state).staged = 0 ∧ (PlaneRun.start d turn state).uploaded = [] ∧
      (PlaneRun.start d turn state).written = [] := by
  cases hc : turn.carry with
  | false => exact (start_fresh state hr hc).2
  | true => simp [PlaneRun.start, hc]

/-- A cleared state is what a chunk that starts afresh begins with. -/
theorem Cleared.kept (hl : d.Legal turn.start turn.count) (hfresh : turn.carry = false)
    (h : Cleared d turn.plane d.ntemp s.toRollState) :
    Kept d turn.plane (d.oldest turn.start turn.carry)
      ((begin d.toGeometry turn.start turn.count turn.carry).top d.toGeometry turn.start turn.count
        turn.carry) (begin d.toGeometry turn.start turn.count turn.carry) s.toRollState := by
  have hr := hl.radius_pos
  have hnt : d.ntemp = 2 * d.radius + 1 := rfl
  have hpos := fun a : Int => Int.emod_nonneg a (show d.ntemp ≠ 0 by omega)
  have hlt := fun a : Int => Int.emod_lt_of_pos a (show 0 < d.ntemp by omega)
  rw [hfresh, top_begin_fresh hl]
  refine ⟨?_, ?_, ?_, ?_, ?_, ?_⟩
  · intro F h1 h2
    omega
  · intro F h0 hF
    rw [h.resident] at hF
    dsimp only at hF
    omega
  · intro _ F h1 h2
    omega
  · intro _ E h1 _ h3
    simp only [begin, firstCenter_fresh, firstFrame_fresh hl] at h1 h3
    omega
  · intro h2 hactive ch hch
    refine Sliding.open_zero _ (fun t _ _ _ => h.basicSums h2 hactive ch hch _ (hpos t) (hlt t)) ?_
    simp only [begin, firstFrame_fresh hl, firstBasic_fresh hl, Driver.basicSliding]
    omega
  · intro ch hch
    refine Sliding.open_zero _ (fun t _ _ _ => h.sums ch hch _ (hpos t) (hlt t)) ?_
    simp only [begin, firstCenter_fresh, Driver.sliding]
    omega

/-- A turn begins with a state as its walk needs it. -/
theorem running_start (hl : turn.Legal d.toGeometry)
    (hleft : turn.carry = true → Left d turn.plane turn.start state) :
    Running d turn (begin d.toGeometry turn.start turn.count turn.carry)
      (PlaneRun.start d turn state) := by
  have hr : 0 ≤ d.radius := by have := hl.chunk.radius_pos; omega
  have hempty : (begin d.toGeometry turn.start turn.count turn.carry).out = turn.start := rfl
  refine ⟨placed_begin hl.chunk, fun _ => staged_begin hl.chunk, ?_, ?_⟩
  · cases hc : turn.carry with
    | false =>
      have := (start_fresh state hr hc).1
      exact hc ▸ this.kept hl.chunk hc
    | true =>
      have hcur : begin d.toGeometry turn.start turn.count true =
          boundary d.toGeometry turn.start := by
        simp only [begin, boundary, firstCenter_carry hl.chunk, firstFrame_carry,
          firstBasic_carry]
      have hrun : (PlaneRun.start d turn state).toRollState = state := by
        simp only [PlaneRun.start, hc, if_true]
      rw [hrun, top_begin_carry hl.chunk, hcur]
      exact (hleft hc).kept
  · rw [hempty, Loops.range_empty (Int.le_refl _), List.flatMap_nil]
    exact (start_logs turn state hr).2.2

/-- A chunk that is done leaves what the next needs. -/
theorem Running.left (hl : turn.Legal d.toGeometry) (h : Running d turn c s)
    (hc : Done d.toGeometry turn.start turn.count c) :
    Left d turn.plane (turn.start + turn.count) s.toRollState := by
  have ⟨hr, h0, hcount, hend⟩ := hl.chunk
  have hkept := h.kept
  have hreach : 0 ≤ d.rollReach := by simp only [Geometry.rollReach]; split <;> omega
  have hold : d.oldest turn.start turn.carry ≤ turn.start + turn.count := by
    simp only [Geometry.oldest]
    split <;> omega
  rw [top_done hl.chunk hc] at hkept
  refine ⟨by omega, ⟨hkept.held.mono hold, hkept.known, ?_, ?_, ?_, ?_⟩⟩
  · intro hgc F h1
    exact hkept.guide hgc F (by omega)
  · intro h2
    have hest := hkept.estimates h2
    rwa [hc.f_eq, hc.frame_eq h2] at hest
  · intro h2 hactive ch hch
    have hsums := hkept.basicSums h2 hactive ch hch
    rwa [hc.frame_eq h2, hc.center_eq h2] at hsums
  · intro ch hch
    have hsums := hkept.sums ch hch
    rwa [hc.f_eq, hc.out_eq] at hsums

/-! ## The run of a turn -/

/-- A turn planned over the ring that a state holds, with what it needs of the state. -/
structure Planned (d : Driver n P S B) (turn : RollTurn) (state : RollState n P S) : Prop where
  legal : turn.Legal d.toGeometry
  left : turn.carry = true → Left d turn.plane turn.start state
  uploads_eq : turn.uploads =
    (d.plan d.srcRing turn.start turn.count turn.carry state.resident).uploads

theorem start_resident (state : RollState n P S) (hr : 0 ≤ d.radius) :
    (PlaneRun.start d turn state).resident = if turn.carry then state.resident else fun _ => -1 := by
  cases hc : turn.carry with
  | false => exact (start_fresh state hr hc).1.resident
  | true => simp [PlaneRun.start, hc]

theorem Planned.onPlan (h : Planned d turn state) :
    OnPlan d turn (PlaneRun.start d turn state)
      (d.walkChunk turn.start turn.count turn.carry) := by
  have hr : 0 ≤ d.radius := by have := h.legal.chunk.radius_pos; omega
  obtain ⟨hst, hup, -⟩ := start_logs turn state hr
  refine ⟨by rw [hst, hup, List.take_zero], ?_⟩
  rw [hst, List.drop_zero, start_resident state hr, h.uploads_eq, plan_eq]

/-- Every call of the walk is made, on a run that is as it should be. -/
theorem Planned.visits (hg : d.OneGuide) (h : Planned d turn state) {pre post : List Visit}
    {v : Visit} (hwalk : d.walkChunk turn.start turn.count turn.carry = pre ++ v :: post) :
    ∃ run b b', PlaneRun.visits d turn state pre = .ok run ∧ Running d turn b run ∧
      Step d.toGeometry turn.start turn.count b v b' ∧ OnPlan d turn run (v :: post) := by
  obtain ⟨c, hpath, -⟩ := walkChunk_path h.legal.chunk h.legal.carried
  rw [hwalk] at hpath
  obtain ⟨b, b', hpre, hs, -⟩ := hpath.split
  have hplan := h.onPlan
  rw [hwalk] at hplan
  obtain ⟨hrun, hrest⟩ := hplan.visits
  refine ⟨_, b, b', hrun, ?_, hs, hrest⟩
  exact hpre.foldl (running_start h.legal h.left) fun _ _ _ _ hs hrun =>
    hrun.advance h.legal hg hs

/-- A planned turn is run to its end. -/
theorem Planned.queuePlane (hg : d.OneGuide) (h : Planned d turn state) :
    ∃ run c, queuePlane d turn state = .ok run ∧ Running d turn c run ∧
      Done d.toGeometry turn.start turn.count c ∧ run.uploaded = turn.uploads ∧
      run.resident =
        (d.plan d.srcRing turn.start turn.count turn.carry state.resident).promised := by
  have hr : 0 ≤ d.radius := by have := h.legal.chunk.radius_pos; omega
  obtain ⟨c, hpath, hdone⟩ := walkChunk_path h.legal.chunk h.legal.carried
  have hplan := h.onPlan
  rw [← List.append_nil (d.walkChunk turn.start turn.count turn.carry)] at hplan
  obtain ⟨hrun, hend⟩ := hplan.visits
  refine ⟨_, c, hrun, ?_, hdone, hend.uploaded, ?_⟩
  · exact hpath.foldl (running_start h.legal h.left) fun _ _ _ _ hs hrun =>
      hrun.advance h.legal hg hs
  · rw [advance_foldl_resident, start_resident state hr, plan_eq]

end Chunk

/-! ## The life of a rolling state -/

/-- A rolling state: what its plans know, the turns that wait, the device buffers, and the
runs that are done. -/
structure Life (n : Nat) (P S : Type*) where
  plane : Option Nat
  nextStart : Int
  promised : Int → Int
  waiting : List RollTurn
  device : RollState n P S
  finished : List (RollTurn × PlaneRun n P S)

/-- A request plans a chunk (`prefer`: its slot is not too far behind to carry on), or the turn
that is next runs. -/
inductive Event where
  | plan (plane : Nat) (start count : Int) (prefer : Bool)
  | run

def Event.Legal (d : Geometry) : Event → Prop
  | .plan _ start count _ => d.Legal start count
  | .run => True

namespace Life

variable (d : Driver n P S B) (l : Life n P S)

/-- A state before its first chunk. -/
def init (device : RollState n P S) : Life n P S where
  plane := none
  nextStart := -1
  promised := fun _ => -1
  waiting := []
  device := { device with resident := fun _ => -1 }
  finished := []

/-- A chunk that follows the last one planned carries on from it. -/
def carries (plane : Nat) (start : Int) (prefer : Bool) : Bool :=
  prefer && decide (l.plane = some plane ∧ l.nextStart = start)

def planTurn (plane : Nat) (start count : Int) (prefer : Bool) : Life n P S :=
  let carry := l.carries plane start prefer
  let planned := d.plan d.srcRing start count carry l.promised
  { l with
    plane := some plane
    nextStart := start + count
    promised := planned.promised
    waiting := l.waiting ++ [⟨plane, start, count, carry, planned.uploads⟩] }

def step (l : Life n P S) : Event → Except String (Life n P S)
  | .plan plane start count prefer => .ok (l.planTurn d plane start count prefer)
  | .run =>
    match l.waiting with
    | [] => .ok l
    | turn :: rest => do
      let run ← queuePlane d turn l.device
      return { l with
        waiting := rest
        device := run.toRollState
        finished := l.finished ++ [(turn, run)] }

end Life

/-- The turns that wait, from a state whose last chunk was `last` and whose ring holds `cells`,
to what the plans know. -/
inductive Queue (d : Driver n P S B) :
    Option (Nat × Int) → (Int → Int) → List RollTurn → Option (Nat × Int) → (Int → Int) → Prop
  | nil (last : Option (Nat × Int)) (cells : Int → Int) : Queue d last cells [] last cells
  | cons {last last' : Option (Nat × Int)} {cells cells' : Int → Int} {turn : RollTurn}
      {rest : List RollTurn} : turn.Legal d.toGeometry →
      (turn.carry = true → last = some (turn.plane, turn.start)) →
      turn.uploads = (d.plan d.srcRing turn.start turn.count turn.carry cells).uploads →
      Queue d (some (turn.plane, turn.start + turn.count))
        (d.plan d.srcRing turn.start turn.count turn.carry cells).promised rest last' cells' →
      Queue d last cells (turn :: rest) last' cells'

/-- A life whose plans and device agree. -/
structure Agrees (d : Driver n P S B) (l : Life n P S) (last : Option (Nat × Int)) : Prop where
  left : ∀ plane e, last = some (plane, e) → Left d plane e l.device
  queue : Queue d last l.device.resident l.waiting (l.plane.map (·, l.nextStart)) l.promised
  finished : ∀ done ∈ l.finished, done.2.uploaded = done.1.uploads ∧
    done.2.written = (Int.range done.1.start (done.1.start + done.1.count)).flatMap
      (d.results done.1.plane done.1.start) ∧
    (d.walkChunk done.1.start done.1.count done.1.carry).filterMap Visit.output? =
      Int.range done.1.start (done.1.start + done.1.count)

section Life

variable {d : Driver n P S B} {l : Life n P S} {last last' : Option (Nat × Int)}
variable {cells cells' : Int → Int} {ts : List RollTurn} {turn : RollTurn}

theorem Queue.snoc (h : Queue d last cells ts last' cells') (hl : turn.Legal d.toGeometry)
    (hc : turn.carry = true → last' = some (turn.plane, turn.start))
    (hu : turn.uploads = (d.plan d.srcRing turn.start turn.count turn.carry cells').uploads) :
    Queue d last cells (ts ++ [turn]) (some (turn.plane, turn.start + turn.count))
      (d.plan d.srcRing turn.start turn.count turn.carry cells').promised := by
  induction h with
  | nil => exact .cons hl hc hu (.nil _ _)
  | cons hl' hc' hu' _ ih => exact .cons hl' hc' hu' (ih hc hu)

/-- A chunk ends behind the first frame. -/
theorem Queue.last_pos (h : Queue d last cells ts last' cells')
    (hlast : ∀ plane e, last = some (plane, e) → 1 ≤ e) {plane : Nat} {e : Int}
    (he : last' = some (plane, e)) : 1 ≤ e := by
  induction h with
  | nil => exact hlast plane e he
  | cons hl _ _ _ ih =>
    refine ih ?_ he
    rintro _ _ ⟨⟩
    have := hl.chunk.start_nonneg
    have := hl.chunk.count_pos
    omega

theorem agrees_init (device : RollState n P S) : Agrees d (Life.init device) none where
  left _ _ h := nomatch h
  queue := .nil _ _
  finished _ h := nomatch h

theorem Agrees.plan (h : Agrees d l last) {plane : Nat} {start count : Int} (prefer : Bool)
    (hl : d.Legal start count) : Agrees d (l.planTurn d plane start count prefer) last := by
  refine ⟨h.left, ?_, h.finished⟩
  have hlast : l.carries plane start prefer = true →
      l.plane.map (·, l.nextStart) = some (plane, start) := by
    intro hc
    simp only [Life.carries, Bool.and_eq_true, decide_eq_true_eq] at hc
    simp [hc.2.1, hc.2.2]
  refine h.queue.snoc ⟨hl, fun hc => ?_⟩ hlast rfl
  exact h.queue.last_pos (fun p e he => (h.left p e he).pos) (hlast hc)

/-- The next turn of a life is planned over the ring its device holds. -/
theorem Agrees.planned (h : Agrees d l last) {rest : List RollTurn}
    (hw : l.waiting = turn :: rest) : Planned d turn l.device := by
  have hq := h.queue
  rw [hw] at hq
  cases hq with
  | cons hl hc hu _ => exact ⟨hl, fun hcarry => h.left _ _ (hc hcarry), hu⟩

theorem Agrees.run (hg : d.OneGuide) (h : Agrees d l last) {rest : List RollTurn}
    (hw : l.waiting = turn :: rest) :
    ∃ l', l.step d .run = .ok l' ∧
      Agrees d l' (some (turn.plane, turn.start + turn.count)) := by
  have hplanned := h.planned hw
  obtain ⟨run, c, hrun, hrunning, hdone, huploaded, hres⟩ := hplanned.queuePlane hg
  have hq := h.queue
  rw [hw] at hq
  cases hq with
  | cons hl hc hu hrest =>
    refine ⟨{ l with waiting := rest, device := run.toRollState,
                     finished := l.finished ++ [(turn, run)] }, ?_, ?_, ?_, ?_⟩
    · simp only [Life.step, hw, hrun]
      rfl
    · rintro _ _ ⟨⟩
      exact hrunning.left hl hdone
    · simp only
      rw [hres]
      exact hrest
    · intro done hmem
      rcases List.mem_append.mp hmem with hmem | hmem
      · exact h.finished done hmem
      · obtain rfl := List.mem_singleton.mp hmem
        refine ⟨huploaded, ?_, walkChunk_outputs hl.chunk hl.carried⟩
        rw [hrunning.written, hdone.out_eq]

/-- No event of a life fails. -/
theorem Agrees.step (hg : d.OneGuide) (h : Agrees d l last) {e : Event}
    (hl : e.Legal d.toGeometry) : ∃ l' last', l.step d e = .ok l' ∧ Agrees d l' last' := by
  cases e with
  | plan plane start count prefer => exact ⟨_, last, rfl, h.plan prefer hl⟩
  | run =>
    cases hw : l.waiting with
    | nil => exact ⟨l, last, by simp [Life.step, hw], h⟩
    | cons turn rest =>
      obtain ⟨l', hstep, hagrees⟩ := h.run hg hw
      exact ⟨l', _, hstep, hagrees⟩

theorem Agrees.events (hg : d.OneGuide) (h : Agrees d l last) {es : List Event}
    (hl : ∀ e ∈ es, e.Legal d.toGeometry) :
    ∃ l' last', es.foldlM (Life.step d) l = .ok l' ∧ Agrees d l' last' := by
  induction es generalizing l last with
  | nil => exact ⟨l, last, rfl, h⟩
  | cons e es ih =>
    obtain ⟨l', last', hstep, h'⟩ := h.step hg (hl e List.mem_cons_self)
    rw [List.foldlM_cons, hstep]
    exact ih h' fun e' he' => hl e' (List.mem_cons_of_mem _ he')

/-- **The schedule is right.** Planning and running a state's chunks in any order, nothing
fails; a run outputs the frames of its chunk in order, each once, and writes each from exactly
its own centers; and before every call of every run the rings of sums and estimates hold what
the call needs, each frame in a cell of its own. -/
theorem Life.runs_own_centers (hg : d.OneGuide) (device : RollState n P S) (es : List Event)
    (hl : ∀ e ∈ es, e.Legal d.toGeometry) :
    ∃ l, es.foldlM (Life.step d) (Life.init device) = .ok l ∧
      (∀ turn run, (turn, run) ∈ l.finished →
        (d.walkChunk turn.start turn.count turn.carry).filterMap Visit.output? =
            Int.range turn.start (turn.start + turn.count) ∧
          run.written = (Int.range turn.start (turn.start + turn.count)).flatMap
            (d.results turn.plane turn.start)) ∧
      ∀ turn rest, l.waiting = turn :: rest → ∀ pre v post,
        d.walkChunk turn.start turn.count turn.carry = pre ++ v :: post →
          ∃ run, PlaneRun.visits d turn l.device pre = .ok run ∧
            Sound d turn.plane run.toRollState v := by
  obtain ⟨l, last, hrun, hagrees⟩ := (agrees_init device).events hg hl
  refine ⟨l, hrun, fun turn run hmem => ?_, fun turn rest hw pre v post hwalk => ?_⟩
  · have hfin := hagrees.finished _ hmem
    exact ⟨hfin.2.2, hfin.2.1⟩
  · have hplanned := hagrees.planned hw
    obtain ⟨run, b, b', hvisits, hrunning, hs, -⟩ := hplanned.visits hg hwalk
    exact ⟨run, hvisits, hrunning.sound hplanned.legal hs⟩

/-- A clip of six frames whose pixels are their frame numbers, filtered in two stages. -/
def counting : Driver 1 Int Int Int where
  radius := 1
  numFrames := 6
  twoStage := true
  name := "BM3D"
  sharedMatch := false
  guideClip := false
  channelOut _ := true
  basicOut _ := true
  planes _ := {
    fused := true
    basicActive := true
    basicFused := false
    clip := fun f _ => f
    guide := fun _ _ => 0
    sums := ⟨0, (· + ·), fun sum source => sum + source⟩
    basicSums := ⟨0, (· + ·), fun sum source => sum - source⟩
    filter := fun c _ _ t _ => 10 * c + t
    basicFilter := fun c _ t _ => c * t }

/-- The buffers of a state before its first chunk. -/
def blank : RollState 1 Int Int where
  resident _ := 7
  srcFrames _ _ := 0
  refFrames _ _ := 0
  acc _ _ := 0
  basicAcc _ _ := 0

/-- Two chunks planned before the first of them runs. -/
def twoChunks : List Event := [.plan 0 0 2 true, .plan 0 2 2 true, .run, .run]

theorem twoChunks_legal : ∀ e ∈ twoChunks, e.Legal counting.toGeometry := by
  have h0 : counting.Legal 0 2 := ⟨by decide, by decide, by decide, by decide⟩
  have h2 : counting.Legal 2 2 := ⟨by decide, by decide, by decide, by decide⟩
  intro e he
  simp only [twoChunks, List.mem_cons, List.not_mem_nil, or_false] at he
  rcases he with rfl | rfl | rfl | rfl
  · exact h0
  · exact h2
  · trivial
  · trivial

/-- Both chunks write the sums of their own centers. -/
theorem twoChunks_written :
    ∃ l, twoChunks.foldlM (Life.step counting) (Life.init blank) = .ok l ∧
      ∀ turn run, (turn, run) ∈ l.finished →
        run.written = (Int.range turn.start (turn.start + turn.count)).flatMap
          (counting.results turn.plane turn.start) := by
  obtain ⟨l, hl, hfin, -⟩ := Life.runs_own_centers (d := counting) (fun _ => rfl) blank twoChunks
    twoChunks_legal
  exact ⟨l, hl, fun turn run hmem => (hfin turn run hmem).2⟩

example : ((twoChunks.foldlM (Life.step counting) (Life.init blank)).toOption.map fun l =>
    l.finished.map fun run => run.2.written.map fun r => r.2.2) =
    (some [[11, 34], [65, 96]] : Option (List (List Int))) := by rfl

/-- **Plan and device agree.** Planning and running a state's chunks in any order, no upload
fails: a run makes exactly the planned uploads, in order, and every source frame that a call
reads is resident in its cell then. -/
theorem Life.uploads_as_planned (hg : d.OneGuide) (device : RollState n P S) (es : List Event)
    (hl : ∀ e ∈ es, e.Legal d.toGeometry) :
    ∃ l, es.foldlM (Life.step d) (Life.init device) = .ok l ∧
      (∀ turn run, (turn, run) ∈ l.finished → run.uploaded = turn.uploads) ∧
      ∀ turn rest, l.waiting = turn :: rest → ∀ pre v post,
        d.walkChunk turn.start turn.count turn.carry = pre ++ v :: post →
          ∃ run run', PlaneRun.visits d turn l.device pre = .ok run ∧
            atRead d turn run v = .ok run' ∧ Resident d turn.plane run'.toRollState v := by
  obtain ⟨l, last, hrun, hagrees⟩ := (agrees_init device).events hg hl
  refine ⟨l, hrun, fun turn run hmem => (hagrees.finished _ hmem).1, ?_⟩
  intro turn rest hw pre v post hwalk
  have hplanned := hagrees.planned hw
  obtain ⟨run, b, b', hvisits, hrunning, hs, hplan⟩ := hplanned.visits hg hwalk
  exact ⟨run, _, hvisits, hplan.atRead, (hrunning.fetch hplanned.legal hg hs).2⟩

/-- The uploads of both chunks are the planned ones. -/
theorem twoChunks_uploaded :
    ∃ l, twoChunks.foldlM (Life.step counting) (Life.init blank) = .ok l ∧
      ∀ turn run, (turn, run) ∈ l.finished → run.uploaded = turn.uploads := by
  obtain ⟨l, hl, hfin, -⟩ := Life.uploads_as_planned (d := counting) (fun _ => rfl) blank twoChunks
    twoChunks_legal
  exact ⟨l, hl, hfin⟩

end Life

end NssFactory.Cuda
