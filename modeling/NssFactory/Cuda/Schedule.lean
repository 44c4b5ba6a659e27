import NssFactory.Cuda.PlaneRun

/-!
# What a CUDA chunk computes

The invariant of a rolling state under the walk (`Kept`) and its step lemmas.

* `visit_planned`: a run whose turn was planned from what the ring holds uploads exactly the
  planned frames, so the plan and the device never disagree.
* `Kept.step`: each call of the walk keeps the ring of source frames, the estimates and both
  rings of sums what they should be.
-/

namespace NssFactory.Cuda

open Rolling

variable {n : Nat} {P S B : Type*}

namespace Driver

variable (d : Driver n P S B) (plane : Nat)

/-- What the centers of the first stage add to the frames of a channel. -/
def basicSliding (c : Fin n) : Sliding S B where
  zero := (d.planes plane).basicSums.zero
  add := (d.planes plane).basicSums.add
  term center target := (d.planes plane).basicFilter center
    ((d.windowFrames center).map (d.planes plane).clip) (target - center + d.radius) c
  radius := d.radius
  last := d.last

/-- The first stage's estimate of a frame. -/
def estimate (frame : Int) : Fin n → P := fun c =>
  if !(d.planes plane).basicActive || !d.basicOut c then (d.planes plane).clip frame c
  else (d.planes plane).basicSums.finish ((d.basicSliding plane c).total frame)
    ((d.planes plane).clip frame c)

/-- The frames that the launches of the (second) stage are guided by. -/
def references (center : Int) : Option (List (Fin n → P)) :=
  if d.wiener then
    some ((d.windowFrames center).map
      (if d.guideClip then (d.planes plane).guide else d.estimate plane))
  else none

/-- What the centers of the (second) stage add to the frames of a channel. -/
def sliding (c : Fin n) : Sliding S B where
  zero := (d.planes plane).sums.zero
  add := (d.planes plane).sums.add
  term center target := (d.planes plane).filter center
    ((d.windowFrames center).map (d.planes plane).clip) (d.references plane center)
    (target - center + d.radius) c
  radius := d.radius
  last := d.last

/-- The planes that a chunk from `start` writes of frame `frame`. -/
def results (start frame : Int) : List (Int × Fin n × P) :=
  ((List.finRange n).filter d.channelOut).map fun c =>
    (frame - start, c, (d.planes plane).sums.finish ((d.sliding plane c).total frame)
      ((d.planes plane).clip frame c))

/-- Two stages take no guide clip. -/
def OneGuide : Prop := d.twoStage = true → d.guideClip = false

end Driver

/-! ## Uploads -/

section Uploads

variable {d : Driver n P S B} {turn : RollTurn} {s : PlaneRun n P S} {ws us rest : List Int}

/-- The run after the uploads of `us`. -/
def fetch (d : Driver n P S B) (turn : RollTurn) (s : PlaneRun n P S) (us : List Int) :
    PlaneRun n P S :=
  { s with
    srcFrames := putAll d.srcRing (d.planes turn.plane).clip us s.srcFrames
    refFrames :=
      if d.guideClip then putAll d.ntemp (d.planes turn.plane).guide us s.refFrames
      else s.refFrames
    resident := putAll d.srcRing id us s.resident
    staged := s.staged + us.length
    uploaded := s.uploaded ++ us }

theorem fetch_nil : fetch d turn s [] = s := by
  simp [fetch, putAll]

theorem fetch_put {fn : Int} : fetch d turn (PlaneRun.put d turn s fn) us = fetch d turn s (fn :: us) := by
  simp only [fetch, PlaneRun.put, putAll, List.foldl_cons, List.length_cons, List.append_assoc,
    List.cons_append, List.nil_append, id]
  congr 1
  · split <;> rfl
  · omega

/-- An upload the turn has planned puts exactly the frames that the ring is missing. -/
theorem upload_planned (ws : List Int)
    (h : turn.uploads.drop s.staged = missing d.srcRing ws s.resident ++ rest) :
    ws.foldlM (PlaneRun.uploadFrame d turn) s =
      .ok (fetch d turn s (missing d.srcRing ws s.resident)) := by
  induction ws generalizing s with
  | nil =>
    rw [missing, fetch_nil]
    rfl
  | cons w ws ih =>
    rw [List.foldlM_cons, missing] at *
    by_cases hheld : s.resident (w % d.srcRing) = w
    · rw [if_pos hheld] at *
      rw [PlaneRun.uploadFrame, if_pos hheld]
      exact ih h
    · rw [if_neg hheld] at *
      have hnext : turn.uploads[s.staged]? = some w := by
        rw [← Nat.add_zero s.staged, ← List.getElem?_drop, h]
        rfl
      rw [PlaneRun.uploadFrame, if_neg hheld, if_neg (not_not.mpr hnext), ← fetch_put]
      refine ih (s := PlaneRun.put d turn s w) ?_
      have htail := congrArg List.tail h
      rwa [List.tail_drop] at htail

/-- The kernels of a call, once its uploads are made. -/
def act (d : Driver n P S B) (turn : RollTurn) (s : PlaneRun n P S) : Visit → PlaneRun n P S
  | .basicCenter c next => PlaneRun.basicKernels d turn s c next
  | .basicFrame frame => PlaneRun.basicFrame d turn s frame
  | .center c next => PlaneRun.kernels d turn s c next
  | .output frame => PlaneRun.output d turn s frame

/-- A call whose uploads are the planned ones. -/
def advance (d : Driver n P S B) (turn : RollTurn) (s : PlaneRun n P S) (v : Visit) :
    PlaneRun n P S :=
  act d turn (fetch d turn s (missing d.srcRing (d.stages v) s.resident)) v

theorem act_resident (v : Visit) : (act d turn s v).resident = s.resident := by
  cases v with
  | basicCenter => simp only [act, PlaneRun.basicKernels]; split <;> rfl
  | basicFrame => rfl
  | center => rfl
  | output => rfl

theorem act_staged (v : Visit) : (act d turn s v).staged = s.staged := by
  cases v with
  | basicCenter => simp only [act, PlaneRun.basicKernels]; split <;> rfl
  | basicFrame => rfl
  | center => rfl
  | output => rfl

theorem act_uploaded (v : Visit) : (act d turn s v).uploaded = s.uploaded := by
  cases v with
  | basicCenter => simp only [act, PlaneRun.basicKernels]; split <;> rfl
  | basicFrame => rfl
  | center => rfl
  | output => rfl

theorem visit_planned {v : Visit}
    (h : turn.uploads.drop s.staged = missing d.srcRing (d.stages v) s.resident ++ rest) :
    PlaneRun.visit d turn s v = .ok (advance d turn s v) := by
  cases v with
  | basicCenter c next =>
    simp only [PlaneRun.visit, PlaneRun.basicCenter, PlaneRun.upload]
    rw [upload_planned (d.windowFrames c) h]
    rfl
  | basicFrame frame => simp only [advance, Geometry.stages, missing, fetch_nil]; rfl
  | center c next =>
    simp only [PlaneRun.visit, PlaneRun.center, PlaneRun.upload, advance]
    by_cases h2 : d.twoStage = true
    · simp only [Geometry.stages, h2, if_true, missing, fetch_nil]
      rfl
    · simp only [Geometry.stages, h2, Bool.false_eq_true, if_false] at h ⊢
      rw [upload_planned _ h]
      rfl
  | output frame => simp only [advance, Geometry.stages, missing, fetch_nil]; rfl

/-- What a run has uploaded and what its turn still plans, before the calls `vs`. -/
structure OnPlan (d : Driver n P S B) (turn : RollTurn) (s : PlaneRun n P S) (vs : List Visit) :
    Prop where
  done : turn.uploads.take s.staged = s.uploaded
  rest : turn.uploads.drop s.staged = missing d.srcRing (vs.flatMap d.stages) s.resident

theorem OnPlan.advance {v : Visit} {vs : List Visit} (h : OnPlan d turn s (v :: vs)) :
    PlaneRun.visit d turn s v = .ok (advance d turn s v) ∧
      OnPlan d turn (advance d turn s v) vs := by
  have hrest := h.rest
  rw [List.flatMap_cons, missing_append] at hrest
  have hres : (Cuda.advance d turn s v).resident = staged d.srcRing (d.stages v) s.resident := by
    rw [Cuda.advance, act_resident]
    rfl
  refine ⟨visit_planned hrest, ?_, ?_⟩
  · rw [Cuda.advance, act_staged, act_uploaded]
    simp only [fetch]
    rw [List.take_add, h.done, hrest, List.take_left]
  · rw [hres, Cuda.advance, act_staged]
    simp only [fetch]
    rw [← List.drop_drop, hrest, List.drop_left]

/-- A run on plan makes all its calls, and stays on plan. -/
theorem OnPlan.visits {vs ws : List Visit} (h : OnPlan d turn s (vs ++ ws)) :
    vs.foldlM (PlaneRun.visit d turn) s = .ok (vs.foldl (Cuda.advance d turn) s) ∧
      OnPlan d turn (vs.foldl (Cuda.advance d turn) s) ws := by
  induction vs generalizing s with
  | nil => exact ⟨rfl, h⟩
  | cons v vs ih =>
    obtain ⟨hv, hvs⟩ := h.advance
    rw [List.foldlM_cons, hv, List.foldl_cons]
    exact ih hvs

/-- At its end a run on plan has made every planned upload, in order. -/
theorem OnPlan.uploaded (h : OnPlan d turn s []) : s.uploaded = turn.uploads := by
  have hrest := h.rest
  rw [List.flatMap_nil, missing, List.drop_eq_nil_iff] at hrest
  rw [← h.done, List.take_of_length_le hrest]

end Uploads

/-! ## The invariant -/

/-- A rolling state of a plane when the walk is at `c` and the frames up to `hi` are staged. -/
structure Kept (d : Driver n P S B) (plane : Nat) (lo hi : Int) (c : Cursor)
    (s : RollState n P S) : Prop where
  held : Holds d.srcRing lo hi s.resident
  known : ∀ F, 0 ≤ F → s.resident (F % d.srcRing) = F →
    F ≤ hi ∧ s.srcFrames (F % d.srcRing) = (d.planes plane).clip F
  guide : d.guideClip = true → ∀ F, lo ≤ F → F ≤ hi → hi - d.ntemp < F →
    s.refFrames (F % d.ntemp) = (d.planes plane).guide F
  estimates : d.twoStage = true → ∀ E, max 0 (c.f - d.radius) ≤ E → c.frame - d.ntemp ≤ E →
    E < c.frame → s.refFrames (E % d.ntemp) = d.estimate plane E
  basicSums : d.twoStage = true → (d.planes plane).basicActive = true → ∀ ch,
    d.basicOut ch = true → (d.basicSliding plane ch).Open (s.basicAcc ch) c.frame c.center
  sums : ∀ ch, d.channelOut ch = true → (d.sliding plane ch).Open (s.acc ch) c.out c.f

section Kept

variable {d : Driver n P S B} {turn : RollTurn} {s : PlaneRun n P S} {plane : Nat}
variable {start count lo hi hi' u : Int} {carry : Bool} {a b c : Cursor} {v : Visit}

/-- The uploads of a window. -/
theorem Kept.fetch (hl : d.Legal start count) (hg : d.OneGuide) (hlo : 0 ≤ lo)
    (h : Kept d turn.plane lo hi c s.toRollState) (hst : Stages d.toGeometry v hi hi' u)
    (hold : lo ≤ max 0 (u - d.radius)) :
    Kept d turn.plane lo hi' c
      (fetch d turn s (missing d.srcRing (d.stages v) s.resident)).toRollState := by
  have hr := hl.radius_pos
  have hring : d.srcRing = d.windowRing := rfl
  have hnt : d.ntemp = 2 * d.radius + 1 := rfl
  have hreach := hst.reaches
  have hle := hst.le_top
  have hhi := hst.top_eq
  have hsize : 2 * d.radius + 2 ≤ d.srcRing := by
    rw [hring, Geometry.windowRing]
    split <;> omega
  have hmem := hst.mem
  -- exactly the frames behind `hi` are uploaded
  have hnew : ∀ F ∈ missing d.srcRing (d.stages v) s.resident, hi < F ∧ F ≤ hi' := fun F hF =>
    h.held.missing_mem hmem hold (by omega) (by omega) hF
  have hall : ∀ F, hi < F → F ≤ hi' → F ∈ missing d.srcRing (d.stages v) s.resident := by
    intro F h1 h2
    have hF : F ∈ d.stages v := (hmem F).mpr (by omega)
    rw [mem_missing _ fun w hw hcell => ?_]
    · refine ⟨hF, fun hheld => ?_⟩
      have := (h.known F (by omega) hheld).1
      omega
    · have := (hmem w).mp hw
      exact cell_inj (by omega) (by omega) hcell
  have hdist : ∀ k, 2 * d.radius < k → ∀ w ∈ missing d.srcRing (d.stages v) s.resident,
      ∀ p ∈ missing d.srcRing (d.stages v) s.resident, p % k = w % k → p = w := by
    intro k hk w hw p hp hcell
    have h1 := (hmem w).mp (mem_of_mem_missing hw)
    have h2 := (hmem p).mp (mem_of_mem_missing hp)
    exact cell_inj (by omega) (by omega) hcell
  refine ⟨h.held.window hmem (by omega) (by omega) (by omega), ?_, ?_, ?_, h.basicSums, h.sums⟩
  · intro F h0 hF
    simp only [Cuda.fetch] at hF ⊢
    rcases putAll_id_cases (fun p hp w hw => hdist d.srcRing (by omega) w hw p hp) hF with
      hw | ⟨hne, hheld⟩
    · rw [putAll_cell (hdist d.srcRing (by omega) F hw), if_pos hw]
      exact ⟨(hnew F hw).2, rfl⟩
    · rw [putAll_of_ne hne]
      have := h.known F h0 hheld
      exact ⟨by omega, this.2⟩
  · intro hgc F h1 h2 h3
    simp only [Cuda.fetch, hgc, if_true]
    by_cases hF : F ∈ missing d.srcRing (d.stages v) s.resident
    · rw [putAll_cell (hdist d.ntemp (by omega) F hF), if_pos hF]
    · have hhi : F ≤ hi := by
        by_contra hgt
        exact hF (hall F (by omega) h2)
      rw [putAll_of_ne fun w hw => ?_]
      · exact h.guide hgc F h1 hhi (by omega)
      · have := hnew w hw
        exact cell_ne (by omega) (by omega) (by omega)
  · intro h2
    simp only [Cuda.fetch, hg h2, Bool.false_eq_true, if_false]
    exact h.estimates h2

/-- A frame the ring reaches to is in its cell. -/
theorem Kept.source {F : Int} (h : Kept d plane lo hi c s.toRollState) (h0 : 0 ≤ F)
    (hlo : lo ≤ F) (hhi : F ≤ hi) (hring : hi - d.srcRing < F) :
    s.resident (F % d.srcRing) = F ∧
      s.srcFrames (F % d.srcRing) = (d.planes plane).clip F := by
  have hres := h.held F hlo hhi hring
  exact ⟨hres, (h.known F h0 hres).2⟩

theorem oldest_nonneg (carry : Bool) (hl : d.Legal start count) : 0 ≤ d.oldest start carry := by
  have := hl.start_nonneg
  simp only [Geometry.oldest]
  split <;> omega

/-- What a call reads of the source is in the ring. -/
theorem Kept.reads (hl : d.Legal start count) (hcarry : carry = true → 1 ≤ start)
    (hp : Placed d.toGeometry start count carry a)
    (hst : d.twoStage = true → Staged d.toGeometry start count carry a)
    (hs : Step d.toGeometry start count a v b)
    (h : Kept d plane (d.oldest start carry) (b.top d.toGeometry start count carry) c
      s.toRollState) :
    ∀ F ∈ d.reads v, s.resident (F % d.srcRing) = F ∧
      s.srcFrames (F % d.srcRing) = (d.planes plane).clip F := by
  intro F hF
  have hreach := hs.reach hl hcarry hp hst hF
  have h0 := oldest_nonneg carry hl
  exact h.source (by have := hreach.oldest_le; omega) hreach.oldest_le hreach.le_top hreach.top_lt

theorem window_eq {center : Int} (h : ∀ F ∈ d.windowFrames center,
      s.resident (F % d.srcRing) = F ∧ s.srcFrames (F % d.srcRing) = (d.planes plane).clip F) :
    PlaneRun.window d s center = (d.windowFrames center).map (d.planes plane).clip := by
  rw [PlaneRun.window]
  exact List.map_congr_left fun F hF => (h F hF).2

/-- Both kinds of kernels add the slices of a center to the frames from `next` on. -/
theorem addCenter_eq {fused : Bool} {out : Fin n → Bool} {accum : Accum P S B}
    {center next : Int} {slices : Int → Fin n → B} {acc : Fin n → Int → S} {ch : Fin n}
    (hch : out ch = true) (hn0 : 0 ≤ next) (hlast : next ≤ d.last + 1)
    (hn : center ≤ next + d.radius) (hn' : next ≤ center + d.radius + 1) :
    d.addCenter fused out accum center next slices acc ch =
      putRange d.ntemp (fun t a => accum.add a (slices (t - center + d.radius) ch))
        (max next (center - d.radius)) (min (center + d.radius) d.last) (acc ch) := by
  simp only [Driver.addCenter, hch, Bool.not_true, Bool.and_false, Bool.false_eq_true, if_false,
    if_true]
  split
  · exact addFused_eq accum (fun t => slices t ch) (acc ch) hn0 hlast hn hn'
  · rw [Driver.addOrdered, temporalLast_eq]
    rfl

/-- A center of the first stage. -/
theorem Kept.basicKernels (hl : d.Legal start count) (h2 : d.twoStage = true)
    (hst : Staged d.toGeometry start count carry a) (h0 : 0 ≤ a.frame) (hc0 : 0 ≤ a.center)
    (hnear : a.center ≤ a.frame + d.radius)
    (hread : ∀ F ∈ d.windowFrames a.center, s.resident (F % d.srcRing) = F ∧
      s.srcFrames (F % d.srcRing) = (d.planes turn.plane).clip F)
    (h : Kept d turn.plane lo hi a s.toRollState) :
    Kept d turn.plane lo hi { a with center := a.center + 1 }
      (PlaneRun.basicKernels d turn s a.center a.frame).toRollState := by
  have hr := hl.radius_pos
  have h1 := hst.frame_le_last
  have h3 := hst.frame_le_center
  rw [PlaneRun.basicKernels]
  split
  · refine ⟨h.held, h.known, h.guide, h.estimates, ?_, h.sums⟩
    intro _ hactive ch hch
    have hopen := h.basicSums h2 hactive ch hch
    simp only
    rw [addCenter_eq hch h0 h1 hnear h3, window_eq hread]
    exact hopen.addCenter (by simp only [Driver.basicSliding]; omega) hc0
      (by simp only [Driver.basicSliding]; omega) (by simp only [Driver.basicSliding]; omega)
      (by simp only [Driver.basicSliding]; omega)
  · rename_i hactive
    exact ⟨h.held, h.known, h.guide, h.estimates, fun _ ha => absurd ha hactive, h.sums⟩

/-- What the first stage finishes is the estimate of the frame. -/
theorem Kept.basicTotal (hl : d.Legal start count) (h2 : d.twoStage = true)
    (hst : Staged d.toGeometry start count carry a) (hlast : a.frame ≤ d.last)
    (hcenter : min (a.frame + d.radius) d.last < a.center)
    (h : Kept d plane lo hi a s.toRollState) (hactive : (d.planes plane).basicActive = true)
    {ch : Fin n} (hch : d.basicOut ch = true) :
    s.basicAcc ch (a.frame % d.ntemp) = (d.basicSliding plane ch).total a.frame := by
  have hr := hl.radius_pos
  have h1 := hst.center_le_frame
  have h3 := hst.center_le_last
  refine (h.basicSums h2 hactive ch hch).total ?_ ?_ ?_ <;> simp only [Driver.basicSliding] <;>
    omega

theorem Kept.basicFrame (hl : d.Legal start count) (h2 : d.twoStage = true) (hg : d.OneGuide)
    (hst : Staged d.toGeometry start count carry a) (hlast : a.frame ≤ d.last)
    (hcenter : min (a.frame + d.radius) d.last < a.center)
    (hread : s.srcFrames (a.frame % d.srcRing) = (d.planes turn.plane).clip a.frame)
    (h : Kept d turn.plane lo hi a s.toRollState) :
    Kept d turn.plane lo hi { a with frame := a.frame + 1 }
      (PlaneRun.basicFrame d turn s a.frame).toRollState := by
  have hr := hl.radius_pos
  have hnt : d.ntemp = 2 * d.radius + 1 := rfl
  have hnear := hst.center_le_frame
  refine ⟨h.held, h.known, ?_, ?_, ?_, h.sums⟩
  · intro hgc
    simp [hg h2] at hgc
  · intro _ E hE1 hE2 hE3
    simp only [PlaneRun.basicFrame, PlaneRun.clearBasic] at hE2 hE3 ⊢
    by_cases hE : E = a.frame
    · subst hE
      rw [Function.update_self]
      funext ch
      simp only [Driver.estimate, hread]
      split
      · rfl
      · rename_i hskip
        simp only [Bool.or_eq_true, Bool.not_eq_true', not_or, Bool.not_eq_false] at hskip
        rw [h.basicTotal hl h2 hst hlast hcenter hskip.1 hskip.2]
    · rw [update_cell_of_ne _ _ (by omega) (by omega) hE]
      exact h.estimates h2 E hE1 (by omega) (by omega)
  · intro _ hactive ch hch
    simp only [PlaneRun.basicFrame, PlaneRun.clearBasic, h2, hactive, hch, Bool.and_self, if_true]
    exact (h.basicSums h2 hactive ch hch).finish (by simp only [Driver.basicSliding]; omega)

/-- The estimates that a center of the (second) stage reads. -/
theorem Kept.references (hl : d.Legal start count) (hcarry : carry = true → 1 ≤ start)
    (hg : d.OneGuide) (hp : Placed d.toGeometry start count carry a)
    (hst : d.twoStage = true → Staged d.toGeometry start count carry a) (hlast : a.f ≤ d.last)
    (hframe : d.twoStage = true → min (a.f + d.radius) d.last < a.frame)
    (hold : lo ≤ max 0 (a.f - d.radius))
    (hhi : d.twoStage = false → hi = min (a.f + d.radius) d.last)
    (h : Kept d plane lo hi a s.toRollState) :
    PlaneRun.estimates d s a.f = d.references plane a.f := by
  have hr := hl.radius_pos
  have hnt : d.ntemp = 2 * d.radius + 1 := rfl
  have h0 := (first_nonneg hl hcarry).1
  have hle := hp.first_le
  simp only [PlaneRun.estimates, Driver.references]
  split
  · congr 1
    refine List.map_congr_left fun F hF => ?_
    have hF := (mem_windowFrames (by omega) hlast).mp hF
    split
    · rename_i hgc
      have h2 : d.twoStage = false := by
        by_contra h2
        simp [hg (by simpa using h2)] at hgc
      have := hhi h2
      exact h.guide hgc F (by omega) (by omega) (by omega)
    · rename_i hw _ hgc
      have h2 : d.twoStage = true := by
        simpa [Driver.wiener, hgc] using hw
      have := (hst h2).frame_le_f
      have := hframe h2
      exact h.estimates h2 F (by omega) (by omega) (by omega)
  · rfl

/-- A center of the (second) stage. -/
theorem Kept.kernels (hl : d.Legal start count) (hcarry : carry = true → 1 ≤ start)
    (hp : Placed d.toGeometry start count carry a)
    (hw : Waits d.toGeometry start count a.f a.out)
    (hread : ∀ F ∈ d.windowFrames a.f, s.resident (F % d.srcRing) = F ∧
      s.srcFrames (F % d.srcRing) = (d.planes turn.plane).clip F)
    (hest : PlaneRun.estimates d s a.f = d.references turn.plane a.f)
    (h : Kept d turn.plane lo hi a s.toRollState) :
    Kept d turn.plane lo hi { a with f := a.f + 1 }
      (PlaneRun.kernels d turn s a.f a.out).toRollState := by
  have hr := hl.radius_pos
  have hend := hl.end_le
  have hlst : d.last = d.numFrames - 1 := rfl
  have h0 := (first_nonneg hl hcarry).1
  have hs0 := hl.start_nonneg
  have h1 := hp.start_le
  have h2 := hp.out_le
  have h3 := hp.first_le
  have h4 := hp.out_le_f
  have h5 := hw.le_out
  refine ⟨h.held, h.known, h.guide, ?_, h.basicSums, ?_⟩
  · intro h2 E hE1 hE2 hE3
    exact h.estimates h2 E (by simp only at hE1; omega) hE2 hE3
  · intro ch hch
    simp only [PlaneRun.kernels]
    rw [addCenter_eq hch (by omega) (by omega) (by omega) h4, window_eq hread, hest]
    exact (h.sums ch hch).addCenter (by simp only [Driver.sliding]; omega) (by omega)
      (by simp only [Driver.sliding]; omega) (by simp only [Driver.sliding]; omega)
      (by simp only [Driver.sliding]; omega)

theorem Kept.total (hl : d.Legal start count) (hp : Placed d.toGeometry start count carry a)
    (hlast : a.out ≤ d.last) (hdue : min (a.out + d.radius) d.last < a.f)
    (h : Kept d plane lo hi a s.toRollState) {ch : Fin n} (hch : d.channelOut ch = true) :
    s.acc ch (a.out % d.ntemp) = (d.sliding plane ch).total a.out := by
  have hr := hl.radius_pos
  have h1 := hp.f_le_out
  have h3 := hp.f_le_last
  refine (h.sums ch hch).total ?_ ?_ ?_ <;> simp only [Driver.sliding] <;> omega

/-- A frame of the chunk. -/
theorem Kept.output (hp : Placed d.toGeometry start count carry a)
    (h : Kept d turn.plane lo hi a s.toRollState) :
    Kept d turn.plane lo hi { a with out := a.out + 1 }
      (PlaneRun.output d turn s a.out).toRollState := by
  have h1 := hp.f_le_out
  refine ⟨h.held, h.known, h.guide, h.estimates, h.basicSums, ?_⟩
  intro ch hch
  simp only [PlaneRun.output, PlaneRun.clearSums, hch, Bool.not_true, Bool.and_false,
    Bool.false_eq_true, if_false]
  exact (h.sums ch hch).finish (by simp only [Driver.sliding]; omega)

/-- The frame is written to every channel that is written. -/
theorem Kept.written (hl : d.Legal start count) (hp : Placed d.toGeometry start count carry a)
    (hlast : a.out ≤ d.last) (hdue : min (a.out + d.radius) d.last < a.f)
    (hread : s.srcFrames (a.out % d.srcRing) = (d.planes turn.plane).clip a.out)
    (h : Kept d turn.plane lo hi a s.toRollState) :
    (PlaneRun.output d turn s a.out).written =
      s.written ++ d.results turn.plane turn.start a.out := by
  simp only [PlaneRun.output, PlaneRun.clearSums, Driver.results]
  congr 1
  refine List.map_congr_left fun ch hch => ?_
  have hch : d.channelOut ch = true := by simpa using hch
  rw [h.total hl hp hlast hdue hch, hread]

end Kept

/-! ## The steps of a run -/

/-- What a call finds in the rings: the sums so far of every frame it adds to (all among the
`2R+1` frames from the next unfinished one, and zero at a frame's first center), the whole
sums of the frame it finishes, and the estimates of its window. -/
def Sound (d : Driver n P S B) (plane : Nat) (s : RollState n P S) : Visit → Prop
  | .basicCenter center next => (d.planes plane).basicActive = true →
      ∀ ch, d.basicOut ch = true → ∀ T, max next (center - d.radius) ≤ T →
        T ≤ min (center + d.radius) d.last → T ≤ next + 2 * d.radius ∧
          s.basicAcc ch (T % d.ntemp) = (d.basicSliding plane ch).sumBelow T center ∧
          (center = max 0 (T - d.radius) →
            s.basicAcc ch (T % d.ntemp) = (d.planes plane).basicSums.zero)
  | .basicFrame frame => (d.planes plane).basicActive = true → ∀ ch, d.basicOut ch = true →
      s.basicAcc ch (frame % d.ntemp) = (d.basicSliding plane ch).total frame
  | .center center next =>
      (d.twoStage = true → ∀ E ∈ d.windowFrames center,
        s.refFrames (E % d.ntemp) = d.estimate plane E) ∧
      ∀ ch, d.channelOut ch = true → ∀ T, max next (center - d.radius) ≤ T →
        T ≤ min (center + d.radius) d.last → T ≤ next + 2 * d.radius ∧
          s.acc ch (T % d.ntemp) = (d.sliding plane ch).sumBelow T center ∧
          (center = max 0 (T - d.radius) →
            s.acc ch (T % d.ntemp) = (d.planes plane).sums.zero)
  | .output frame => ∀ ch, d.channelOut ch = true →
      s.acc ch (frame % d.ntemp) = (d.sliding plane ch).total frame

/-- Every source frame a call reads is resident in its cell. -/
def Resident (d : Driver n P S B) (plane : Nat) (s : RollState n P S) (v : Visit) : Prop :=
  ∀ F ∈ d.reads v, s.resident (F % d.srcRing) = F ∧
    s.srcFrames (F % d.srcRing) = (d.planes plane).clip F

/-- The run when a call reads the source frames: a center's window is uploaded first. -/
def atRead (d : Driver n P S B) (turn : RollTurn) (s : PlaneRun n P S) :
    Visit → Except String (PlaneRun n P S)
  | .basicCenter center _ => PlaneRun.upload d turn s center
  | .basicFrame _ => .ok s
  | .center center _ => if d.twoStage then .ok s else PlaneRun.upload d turn s center
  | .output _ => .ok s

/-- A run of a turn when its walk is at `c`. -/
structure Running (d : Driver n P S B) (turn : RollTurn) (c : Cursor) (s : PlaneRun n P S) :
    Prop where
  placed : Placed d.toGeometry turn.start turn.count turn.carry c
  staged : d.twoStage = true → Staged d.toGeometry turn.start turn.count turn.carry c
  kept : Kept d turn.plane (d.oldest turn.start turn.carry)
    (c.top d.toGeometry turn.start turn.count turn.carry) c s.toRollState
  written : s.written =
    (Int.range turn.start c.out).flatMap (d.results turn.plane turn.start)

/-- A turn the driver can plan. -/
structure RollTurn.Legal (d : Geometry) (turn : RollTurn) : Prop where
  chunk : d.Legal turn.start turn.count
  carried : turn.carry = true → 1 ≤ turn.start

section Running

variable {d : Driver n P S B} {turn : RollTurn} {s : PlaneRun n P S} {a b : Cursor} {v : Visit}

/-- The uploads of a call, and what it reads then. -/
theorem Running.fetch (hl : turn.Legal d.toGeometry) (hg : d.OneGuide)
    (h : Running d turn a s) (hs : Step d.toGeometry turn.start turn.count a v b) :
    Kept d turn.plane (d.oldest turn.start turn.carry)
        (b.top d.toGeometry turn.start turn.count turn.carry) a
        (fetch d turn s (missing d.srcRing (d.stages v) s.resident)).toRollState ∧
      Resident d turn.plane
        (fetch d turn s (missing d.srcRing (d.stages v) s.resident)).toRollState v := by
  have hkept : Kept d turn.plane (d.oldest turn.start turn.carry)
      (b.top d.toGeometry turn.start turn.count turn.carry) a
      (Cuda.fetch d turn s (missing d.srcRing (d.stages v) s.resident)).toRollState := by
    rcases hs.staged hl.chunk hl.carried h.placed h.staged with ⟨hnil, htop⟩ | hstages
    · rw [hnil, missing, fetch_nil, htop]
      exact h.kept
    · refine h.kept.fetch hl.chunk hg (oldest_nonneg _ hl.chunk) hstages ?_
      refine hstages.oldest_le hl.chunk ?_
      simp only [Cursor.upload, begin]
      split
      · rename_i h2
        exact (h.staged h2).first_le_center
      · exact h.placed.first_le
  exact ⟨hkept, hkept.reads hl.chunk hl.carried h.placed h.staged hs⟩

/-- The sums a center finds, from what the ring holds before it. -/
theorem open_targets {L : Sliding S B} {cells : Int → S} {next e T : Int}
    (h : L.Open cells next e) (hnear : e ≤ next + L.radius)
    (h1 : max next (e - L.radius) ≤ T) (h2 : T ≤ min (e + L.radius) L.last) :
    T ≤ next + 2 * L.radius ∧ cells (T % L.ring) = L.sumBelow T e ∧
      (e = max 0 (T - L.radius) → cells (T % L.ring) = L.zero) := by
  have hsum := h T (by omega) (by omega) (by omega)
  refine ⟨by omega, hsum, fun hfirst => ?_⟩
  rw [hsum, L.sumBelow_zero (by omega)]

/-- Before each call the rings are sound. -/
theorem Running.sound (hl : turn.Legal d.toGeometry) (h : Running d turn a s)
    (hs : Step d.toGeometry turn.start turn.count a v b) :
    Sound d turn.plane s.toRollState v := by
  have hkept := h.kept
  have hr := hl.chunk.radius_pos
  have hend := hl.chunk.end_le
  have hlst : d.last = d.numFrames - 1 := rfl
  cases hs with
  | basicCenter h2 hw hframe hcenter =>
    intro hactive ch hch T h3 h4
    exact open_targets (hkept.basicSums h2 hactive ch hch)
      (by simp only [Driver.basicSliding]; omega) h3 h4
  | basicFrame h2 hw hframe hcenter =>
    intro hactive ch hch
    exact hkept.basicTotal hl.chunk h2 (h.staged h2) (by omega) hcenter hactive hch
  | center hw hframe =>
    have hout := hw.le_out
    refine ⟨fun h2 E hE => ?_, fun ch hch T h3 h4 => ?_⟩
    · have h0 := (first_nonneg hl.chunk hl.carried).1
      have hfirst := h.placed.first_le
      have hfar := (h.staged h2).frame_le_f
      have hnt : d.ntemp = 2 * d.radius + 1 := rfl
      have hE := (mem_windowFrames (by omega) (by omega)).mp hE
      have := hframe h2
      exact hkept.estimates h2 E (by omega) (by omega) (by omega)
    · exact open_targets (hkept.sums ch hch) (by simp only [Driver.sliding]; omega) h3 h4
  | output hlt hdue =>
    intro ch hch
    exact hkept.total hl.chunk h.placed (by omega) hdue hch

theorem Running.advance (hl : turn.Legal d.toGeometry) (hg : d.OneGuide)
    (h : Running d turn a s) (hs : Step d.toGeometry turn.start turn.count a v b) :
    Running d turn b (advance d turn s v) := by
  obtain ⟨hkept, hres⟩ := h.fetch hl hg hs
  have hplaced := h.placed.step hl.chunk hs
  have hstaged := fun h2 => (h.staged h2).step hl.chunk h.placed h2 hs
  have hwritten : (Cuda.fetch d turn s (missing d.srcRing (d.stages v) s.resident)).written =
      s.written := rfl
  have hr := hl.chunk.radius_pos
  have hend := hl.chunk.end_le
  have hlst : d.last = d.numFrames - 1 := rfl
  have ⟨hf0, hfr0, hc0⟩ := first_nonneg hl.chunk hl.carried
  have hfirst := h.placed.first_le
  have hw0 := h.written
  have hreach := fun F => hs.reach hl.chunk hl.carried h.placed h.staged (F := F)
  rw [Cuda.advance]
  generalize Cuda.fetch d turn s (missing d.srcRing (d.stages v) s.resident) = t at *
  cases hs with
  | basicCenter h2 hw hframe hcenter =>
    have h1 := (h.staged h2).first_le_frame
    have h3 := (h.staged h2).first_le_center
    refine ⟨hplaced, hstaged, ?_, ?_⟩
    · exact hkept.basicKernels hl.chunk h2 (h.staged h2) (by omega) (by omega) (by omega) hres
    · rw [act, PlaneRun.basicKernels]
      split <;> exact hwritten.trans hw0
  | basicFrame h2 hw hframe hcenter =>
    refine ⟨hplaced, hstaged, ?_, hwritten.trans hw0⟩
    exact hkept.basicFrame hl.chunk h2 hg (h.staged h2) (by omega) hcenter
      (hres _ (by simp [Geometry.reads])).2
  | center hw hframe =>
    have hout := hw.le_out
    refine ⟨hplaced, hstaged, ?_, hwritten.trans hw0⟩
    have hold : d.oldest turn.start turn.carry ≤ max 0 (a.f - d.radius) :=
      (hreach _ ((mem_windowFrames (by omega) (by omega)).mpr (by omega))).oldest_le
    refine hkept.kernels hl.chunk hl.carried h.placed hw hres ?_
    refine hkept.references hl.chunk hl.carried hg h.placed h.staged (by omega) hframe hold ?_
    intro h2
    rw [top_oneStage h2 fun hc => ?_]
    · simp only
      omega
    · rw [hc, firstCenter_fresh] at hfirst
      simp only
      omega
  | output hlt hdue =>
    refine ⟨hplaced, hstaged, hkept.output h.placed, ?_⟩
    have hstart := h.placed.start_le
    have hnew := hkept.written hl.chunk h.placed (by omega) hdue
      (hres _ (by simp [Geometry.reads])).2
    simp only [act]
    rw [hnew, hwritten, hw0, Loops.range_snoc hstart, List.flatMap_append]
    simp

theorem OnPlan.atRead {vs : List Visit} (h : OnPlan d turn s (v :: vs)) :
    atRead d turn s v = .ok (Cuda.fetch d turn s (missing d.srcRing (d.stages v) s.resident)) := by
  have hrest := h.rest
  rw [List.flatMap_cons, missing_append] at hrest
  cases v with
  | basicCenter c next => exact upload_planned (d.windowFrames c) hrest
  | basicFrame frame => simp only [Geometry.stages, missing, fetch_nil]; rfl
  | center c next =>
    by_cases h2 : d.twoStage = true
    · simp only [Cuda.atRead, Geometry.stages, h2, if_true, missing, fetch_nil]
    · simp only [Geometry.stages, h2, Bool.false_eq_true, if_false] at hrest ⊢
      simp only [Cuda.atRead, h2, Bool.false_eq_true, if_false]
      exact upload_planned _ hrest
  | output frame => simp only [Geometry.stages, missing, fetch_nil]; rfl

theorem advance_foldl_resident (vs : List Visit) :
    (vs.foldl (Cuda.advance d turn) s).resident =
      Rolling.staged d.srcRing (vs.flatMap d.stages) s.resident := by
  induction vs generalizing s with
  | nil => simp [Rolling.staged, missing, putAll]
  | cons v vs ih =>
    rw [List.foldl_cons, ih, List.flatMap_cons, staged_append, Cuda.advance, act_resident]
    rfl

end Running

end NssFactory.Cuda
