import NssFactory.Lib.Ring
import NssFactory.Gpu.Walk

/-!
# The plan of a rolling chunk's uploads

A chunk is planned by walking it over `promised`, the frames the source ring will hold when
the chunk runs (`RollTurn::RollTurn` of both group drivers). `Staging` is that walk's state;
`Geometry.plan` the uploads it finds.

* `plan_eq`: the plan's uploads are the frames the walk stages that the ring is `missing`.
* `Holds ring lo hi cells`: the ring has the frames `lo … hi`, less those a later frame took
  the cell of. `Holds.window` is its step at the window of a center.
* `Step.staged` says which window a call of the walk stages, and `Step.read_range` which source
  frames it reads.
-/

namespace NssFactory.Rolling

/-- The frames of a center's window, slot after slot. -/
def Geometry.windowFrames (d : Geometry) (center : Int) : List Int :=
  (Int.range 0 (2 * d.radius + 1)).map fun t =>
    temporalSlotFrame center t d.radius d.numFrames

/-- The cells of a source ring that are promised to frames, and the uploads this took. -/
structure Staging where
  promised : Int → Int
  uploads : List Int

def Staging.promise (ring : Int) (p : Staging) (fn : Int) : Staging :=
  if p.promised (fn % ring) ≠ fn then
    { promised := Function.update p.promised (fn % ring) fn, uploads := p.uploads ++ [fn] }
  else p

namespace Geometry

variable (d : Geometry)

/-- `window` of the plan: stages what the ring does not hold of a center's window. -/
def stage (ring : Int) (p : Staging) (center : Int) : Staging :=
  (d.windowFrames center).foldl (Staging.promise ring) p

/-- The plan's visitor. -/
def planVisit (ring : Int) (p : Staging) : Visit → Staging
  | .basicCenter center _ => d.stage ring p center
  | .basicFrame _ => p
  | .center center _ => if d.twoStage then p else d.stage ring p center
  | .output _ => p

/-- The plan of a chunk, from the ring as the chunks planned before it leave it. -/
def plan (ring start count : Int) (carry : Bool) (promised : Int → Int) : Staging :=
  (d.walkChunk start count carry).foldl (d.planVisit ring)
    { promised := if carry then promised else fun _ => -1, uploads := [] }

/-- The frames a call stages. -/
def stages : Visit → List Int
  | .basicCenter center _ => d.windowFrames center
  | .basicFrame _ => []
  | .center center _ => if d.twoStage then [] else d.windowFrames center
  | .output _ => []

/-- The source frames a call reads. -/
def reads : Visit → List Int
  | .basicCenter center _ => d.windowFrames center
  | .basicFrame frame => [frame]
  | .center center _ => d.windowFrames center
  | .output frame => [frame]

/-- Frames a rolling chunk reads on each side of itself. -/
def rollReach : Int := (if d.twoStage then 4 else 2) * d.radius

theorem rollReach_eq : d.rollReach = if d.twoStage then 4 * d.radius else 2 * d.radius := by
  simp only [rollReach]
  split <;> rfl

end Geometry

variable {d : Geometry} {ring : Int} {p : Staging}

theorem mem_windowFrames {center F : Int} (h0 : 0 ≤ center) (h1 : center ≤ d.last) :
    F ∈ d.windowFrames center ↔
      max 0 (center - d.radius) ≤ F ∧ F ≤ min (center + d.radius) d.last := by
  have hlst : d.last = d.numFrames - 1 := rfl
  rw [Geometry.windowFrames, List.mem_map]
  constructor
  · rintro ⟨t, ht, rfl⟩
    rw [Int.mem_range_iff] at ht
    rw [hlst]
    exact temporalSlotFrame_mem h0 (by omega) ht.1 (by omega)
  · rintro ⟨hlo, hhi⟩
    refine ⟨F - center + d.radius, Int.mem_range_iff.mpr ⟨by omega, by omega⟩, ?_⟩
    exact temporalSlotFrame_self (by omega) (by omega) h0 (by omega)

/-- The frames of `ws` that the ring does not hold when their turn comes. -/
def missing (ring : Int) : List Int → (Int → Int) → List Int
  | [], _ => []
  | w :: ws, cells =>
    if cells (w % ring) = w then missing ring ws cells
    else w :: missing ring ws (Function.update cells (w % ring) w)

/-- The ring after `ws` has been staged. -/
def staged (ring : Int) (ws : List Int) (cells : Int → Int) : Int → Int :=
  putAll ring id (missing ring ws cells) cells

theorem planVisit_eq (v : Visit) :
    d.planVisit ring p v = (d.stages v).foldl (Staging.promise ring) p := by
  cases v with
  | basicCenter => rfl
  | basicFrame => rfl
  | center =>
    simp only [Geometry.planVisit, Geometry.stages]
    split <;> rfl
  | output => rfl

theorem promise_foldl (ring : Int) (p : Staging) (ws : List Int) :
    ws.foldl (Staging.promise ring) p =
      { promised := staged ring ws p.promised
        uploads := p.uploads ++ missing ring ws p.promised } := by
  induction ws generalizing p with
  | nil => simp [staged, missing, putAll]
  | cons w ws ih =>
    rw [List.foldl_cons, ih]
    simp only [Staging.promise, staged, missing]
    split
    · simp [putAll]
    · rename_i heq
      rw [if_pos (not_not.mp heq)]

theorem planVisit_foldl (vs : List Visit) :
    vs.foldl (d.planVisit ring) p = (vs.flatMap d.stages).foldl (Staging.promise ring) p := by
  induction vs generalizing p with
  | nil => rfl
  | cons v vs ih => rw [List.foldl_cons, ih, planVisit_eq, List.flatMap_cons, List.foldl_append]

/-- The plan of a chunk: the frames its walk stages that the ring does not hold. -/
theorem plan_eq (start count : Int) (carry : Bool) (promised : Int → Int) :
    d.plan ring start count carry promised =
      let frames := (d.walkChunk start count carry).flatMap d.stages
      let cells := if carry then promised else fun _ => -1
      { promised := staged ring frames cells, uploads := missing ring frames cells } := by
  rw [Geometry.plan, planVisit_foldl, promise_foldl]
  rfl

/-- A plan promises the cells of its uploads. -/
theorem plan_promised (start count : Int) (carry : Bool) (promised : Int → Int) :
    (d.plan ring start count carry promised).promised =
      putAll ring id (d.plan ring start count carry promised).uploads
        (if carry then promised else fun _ => -1) := by
  rw [plan_eq]
  rfl

section missing

variable {ws : List Int} {cells : Int → Int} {F : Int}

theorem staged_append (ws' : List Int) :
    staged ring (ws ++ ws') cells = staged ring ws' (staged ring ws cells) := by
  have h := promise_foldl ring ⟨cells, []⟩ (ws ++ ws')
  rw [List.foldl_append, promise_foldl, promise_foldl] at h
  exact (congrArg Staging.promised h).symm

theorem missing_append (ws' : List Int) :
    missing ring (ws ++ ws') cells =
      missing ring ws cells ++ missing ring ws' (staged ring ws cells) := by
  have h := promise_foldl ring ⟨cells, []⟩ (ws ++ ws')
  rw [List.foldl_append, promise_foldl, promise_foldl] at h
  exact (congrArg Staging.uploads h).symm

theorem mem_of_mem_missing (h : F ∈ missing ring ws cells) : F ∈ ws := by
  induction ws generalizing cells with
  | nil => exact h
  | cons w ws ih =>
    rw [missing] at h
    split at h
    · exact List.mem_cons_of_mem _ (ih h)
    · rcases List.mem_cons.mp h with rfl | h
      · exact List.mem_cons_self
      · exact List.mem_cons_of_mem _ (ih h)

/-- A frame whose cell no other frame takes is uploaded if it is not held. -/
theorem mem_missing (cells : Int → Int) (hws : ∀ w ∈ ws, w % ring = F % ring → w = F) :
    F ∈ missing ring ws cells ↔ F ∈ ws ∧ cells (F % ring) ≠ F := by
  induction ws generalizing cells with
  | nil => simp [missing]
  | cons w ws ih =>
    have hw := hws w List.mem_cons_self
    have hws' := fun v hv => hws v (List.mem_cons_of_mem _ hv)
    rw [missing]
    by_cases heq : w = F
    · subst heq
      split
      · rename_i hheld
        simp [ih _ hws', hheld]
      · rename_i hne
        simp [hne]
    · have hcell : F % ring ≠ w % ring := fun h => heq (hw h.symm)
      split
      · simp [ih _ hws', Ne.symm heq]
      · simp [ih _ hws', Ne.symm heq, Function.update_of_ne hcell]

theorem staged_cell (hws : ∀ w ∈ ws, w % ring = F % ring → w = F) :
    staged ring ws cells (F % ring) = if F ∈ ws then F else cells (F % ring) := by
  rw [staged, putAll_cell fun w hw => hws w (mem_of_mem_missing hw)]
  have hmem := mem_missing cells hws
  by_cases hF : F ∈ ws
  · by_cases hheld : cells (F % ring) = F
    · simp [hF, hheld]
    · simp [hF, hmem, hheld]
  · simp [hF, hmem]

end missing

/-- The ring holds the frames `lo … hi`, as many of the last of them as it has cells. -/
def Holds (ring lo hi : Int) (cells : Int → Int) : Prop :=
  ∀ F, lo ≤ F → F ≤ hi → hi - ring < F → cells (F % ring) = F

section Holds

variable {lo hi a b : Int} {ws : List Int} {cells : Int → Int}

theorem Holds.mono {lo' : Int} (h : Holds ring lo hi cells) (hlo : lo ≤ lo') :
    Holds ring lo' hi cells := fun F h1 h2 h3 => h F (by omega) h2 h3

/-- The frames `a … b`, no more than the ring has cells, staged over the frames up to `hi`. -/
theorem Holds.window (h : Holds ring lo hi cells) (hws : ∀ F, F ∈ ws ↔ a ≤ F ∧ F ≤ b)
    (ha : a ≤ hi + 1) (hb : hi ≤ b) (hab : b - a < ring) :
    Holds ring lo b (staged ring ws cells) := by
  intro F h1 h2 h3
  rw [staged_cell fun w hw hcell => ?_]
  · split
    · rfl
    · rename_i hF
      rw [hws] at hF
      exact h F h1 (by omega) (by omega)
  · rw [hws] at hw
    exact cell_inj (by omega) (by omega) hcell

/-- Only frames behind `hi` are uploaded for it. -/
theorem Holds.missing_mem (h : Holds ring lo hi cells) (hws : ∀ F, F ∈ ws ↔ a ≤ F ∧ F ≤ b)
    (hlo : lo ≤ a) (hb : hi ≤ b) (hab : b - a < ring) {F : Int}
    (hF : F ∈ missing ring ws cells) : hi < F ∧ F ≤ b := by
  have hw := (hws F).mp (mem_of_mem_missing hF)
  refine ⟨?_, hw.2⟩
  by_contra hhi
  rw [mem_missing _ fun w hw' hcell => ?_] at hF
  · exact hF.2 (h F (by omega) (by omega) (by omega))
  · rw [hws] at hw'
    exact cell_inj (by omega) (by omega) hcell

end Holds

/-! ## The windows of a walk -/

/-- The next center whose window is staged. -/
def Cursor.upload (d : Geometry) (c : Cursor) : Int := if d.twoStage then c.center else c.f

/-- The last frame staged before a call of the walk. -/
def Cursor.top (d : Geometry) (start count : Int) (carry : Bool) (c : Cursor) : Int :=
  if carry = false ∧ c.upload d = (begin d start count false).upload d then
    max 0 (c.upload d - d.radius) - 1
  else min (c.upload d - 1 + d.radius) d.last

section Windows

variable {start count : Int} {carry : Bool} {a b : Cursor} {v : Visit}

/-- The window of center `c` is staged next, on top of the frames up to `hi`. -/
structure Stages (d : Geometry) (v : Visit) (hi hi' : Int) (c : Int) : Prop where
  frames : d.stages v = d.windowFrames c
  nonneg : 0 ≤ c
  le_last : c ≤ d.last
  reaches : max 0 (c - d.radius) ≤ hi + 1
  le_top : hi ≤ min (c + d.radius) d.last
  top_eq : hi' = min (c + d.radius) d.last

theorem Cursor.top_of_begun
    (h : carry = false → (begin d start count false).upload d < a.upload d) :
    a.top d start count carry = min (a.upload d - 1 + d.radius) d.last := by
  rw [Cursor.top, if_neg]
  rintro ⟨hc, heq⟩
  have := h hc
  omega

/-- Once a center's window is staged, the ring reaches to its end. -/
theorem Cursor.top_next
    (hfirst : carry = false → (begin d start count false).upload d ≤ a.upload d)
    (hb : b.upload d = a.upload d + 1) :
    b.top d start count carry = min (a.upload d + d.radius) d.last := by
  rw [Cursor.top_of_begun, hb]
  · congr 1; omega
  · intro hc
    have := hfirst hc
    omega

theorem Stages.of_upload (hr : 1 ≤ d.radius) (hv : d.stages v = d.windowFrames (a.upload d))
    (h0 : 0 ≤ a.upload d) (hle : a.upload d ≤ d.last)
    (hfirst : carry = false → (begin d start count false).upload d ≤ a.upload d)
    (hb : b.upload d = a.upload d + 1) :
    Stages d v (a.top d start count carry) (b.top d start count carry) (a.upload d) := by
  refine ⟨hv, h0, hle, ?_, ?_, Cursor.top_next hfirst hb⟩
  · simp only [Cursor.top]
    split <;> omega
  · simp only [Cursor.top]
    split <;> omega

/-- A call of the walk stages the window of the next center, or nothing. -/
theorem Step.staged (hl : d.Legal start count) (hcarry : carry = true → 1 ≤ start)
    (hp : Placed d start count carry a) (hst : d.twoStage = true → Staged d start count carry a)
    (hs : Step d start count a v b) :
    (d.stages v = [] ∧ b.top d start count carry = a.top d start count carry) ∨
      Stages d v (a.top d start count carry) (b.top d start count carry) (a.upload d) := by
  have hr := hl.radius_pos
  have ⟨hf0, _, hc0⟩ := first_nonneg hl hcarry
  cases hs with
  | basicCenter h2 hw hframe hcenter =>
    have hst := hst h2
    have hle := hst.first_le_center
    right
    refine .of_upload hr ?_ ?_ ?_ ?_ ?_
    · simp [Geometry.stages, Cursor.upload, h2]
    · simp only [Cursor.upload, h2, if_true]; omega
    · simp only [Cursor.upload, h2, if_true]; omega
    · rintro rfl
      simpa [Cursor.upload, h2, begin] using hle
    · simp [Cursor.upload, h2]
  | basicFrame h2 hw hframe hcenter =>
    left
    simp [Geometry.stages, Cursor.top, Cursor.upload, h2]
  | center hw hframe =>
    cases h2 : d.twoStage with
    | true =>
      left
      simp [Geometry.stages, Cursor.top, Cursor.upload, h2]
    | false =>
      have hle := hp.first_le
      have hlast := hw.le_out
      right
      refine .of_upload hr ?_ ?_ ?_ ?_ ?_
      · simp [Geometry.stages, Cursor.upload, h2]
      · simp only [Cursor.upload, h2, Bool.false_eq_true, if_false]; omega
      · simp only [Cursor.upload, h2, Bool.false_eq_true, if_false]; omega
      · rintro rfl
        simpa [Cursor.upload, h2, begin] using hle
      · simp [Cursor.upload, h2]
  | output hlt hdue =>
    exact .inl ⟨rfl, rfl⟩

/-- The buffers of CUDA's source ring: what the centers read at once and one more. -/
def Geometry.windowRing (d : Geometry) : Int :=
  (if d.twoStage then 4 * d.radius + 1 else 2 * d.radius + 1) + 1

/-- The oldest source frame that a chunk reads. -/
def Geometry.oldest (d : Geometry) (start : Int) (carry : Bool) : Int :=
  if carry then start else max 0 (start - d.rollReach)

theorem top_twoStage (hl : d.Legal start count) (h2 : d.twoStage = true)
    (hbegun : carry = false → max 0 (start - 3 * d.radius) < a.center) :
    a.top d start count carry = min (a.center - 1 + d.radius) d.last := by
  rw [Cursor.top_of_begun]
  · simp [Cursor.upload, h2]
  · intro hc
    simpa [Cursor.upload, h2, begin, firstBasic_fresh hl] using hbegun hc

theorem top_oneStage (h2 : d.twoStage = false)
    (hbegun : carry = false → max 0 (start - d.radius) < a.f) :
    a.top d start count carry = min (a.f - 1 + d.radius) d.last := by
  rw [Cursor.top_of_begun]
  · simp [Cursor.upload, h2]
  · intro hc
    simpa [Cursor.upload, h2, begin, firstCenter_fresh] using hbegun hc

/-- The window of a center is no longer than the ring. -/
theorem window_range {c F : Int} (hr : 1 ≤ d.radius) (h0 : 0 ≤ c) (hle : c ≤ d.last)
    (hF : F ∈ d.windowFrames c) :
    max 0 (c - d.radius) ≤ F ∧ F ≤ min (c + d.radius) d.last ∧
      min (c + d.radius) d.last - d.windowRing < F := by
  have := (mem_windowFrames h0 hle).mp hF
  simp only [Geometry.windowRing]
  split <;> omega

/-- Where a chunk begins, and the oldest frame it reads. -/
theorem begin_cases (hl : d.Legal start count) (carry : Bool) :
    (carry = true ∧ d.oldest start carry = start ∧
      d.firstCenter start count carry = min (start - 1 + d.radius) d.last + 1 ∧
      d.firstFrame start count carry = min (start - 1 + 2 * d.radius) d.last + 1 ∧
      d.firstBasic start count carry = min (start - 1 + 3 * d.radius) d.last + 1) ∨
    (carry = false ∧ d.oldest start carry = max 0 (start - d.rollReach) ∧
      d.firstCenter start count carry = max 0 (start - d.radius) ∧
      d.firstFrame start count carry = max 0 (start - 2 * d.radius) ∧
      d.firstBasic start count carry = max 0 (start - 3 * d.radius)) := by
  cases carry with
  | true => exact .inl ⟨rfl, rfl, firstCenter_carry hl, firstFrame_carry, firstBasic_carry⟩
  | false => exact .inr ⟨rfl, rfl, rfl, firstFrame_fresh hl, firstBasic_fresh hl⟩

/-- Frame `F` is among the last that a ring of this size holds before `b`. -/
structure Reach (d : Geometry) (start count : Int) (carry : Bool) (b : Cursor) (F : Int) :
    Prop where
  oldest_le : d.oldest start carry ≤ F
  le_top : F ≤ b.top d start count carry
  top_lt : b.top d start count carry - d.windowRing < F

section Reach

variable {F : Int}

/-- A center of the first stage reads its window, which is staged for it. -/
theorem Reach.basicCenter (hl : d.Legal start count) (h2 : d.twoStage = true)
    (hst : Staged d start count carry a) (h0 : 0 ≤ a.center) (hlast : a.center ≤ d.last)
    (hF : F ∈ d.windowFrames a.center) :
    Reach d start count carry { a with center := a.center + 1 } F := by
  have ⟨hr, hs0, _, hend⟩ := hl
  have hle := hst.first_le_center
  have hF := window_range hr h0 hlast hF
  have htop : Cursor.top d start count carry { a with center := a.center + 1 } =
      min (a.center + 1 - 1 + d.radius) d.last := by
    refine top_twoStage hl h2 ?_
    rintro rfl
    rw [firstBasic_fresh hl] at hle
    simp only
    omega
  have hreach : d.rollReach = 4 * d.radius := by simp [Geometry.rollReach, h2]
  rw [Int.add_sub_cancel] at htop
  have hold : d.oldest start carry ≤ F := by
    have hlow := hF.1
    clear hF htop
    rcases begin_cases hl carry with ⟨-, hold, -, -, hfirst⟩ | ⟨-, hold, -, -, hfirst⟩ <;> omega
  exact ⟨hold, htop ▸ hF.2.1, htop ▸ hF.2.2⟩

/-- A finished estimate's source is in the window of its last center. -/
theorem Reach.basicFrame (hl : d.Legal start count) (h2 : d.twoStage = true)
    (hst : Staged d start count carry a) (hlast : a.frame ≤ d.last)
    (hcenter : min (a.frame + d.radius) d.last < a.center) :
    Reach d start count carry { a with frame := a.frame + 1 } a.frame := by
  have ⟨hr, hs0, _, hend⟩ := hl
  have hle := hst.first_le_frame
  have hnear := hst.center_le_frame
  have htop : Cursor.top d start count carry { a with frame := a.frame + 1 } =
      min (a.center - 1 + d.radius) d.last := by
    refine top_twoStage hl h2 ?_
    rintro rfl
    rw [firstFrame_fresh hl] at hle
    simp only
    omega
  have hring : d.windowRing = 4 * d.radius + 2 := by simp [Geometry.windowRing, h2, add_assoc]
  have hreach : d.rollReach = 4 * d.radius := by simp [Geometry.rollReach, h2]
  rcases begin_cases hl carry with ⟨-, hold, -, hfirst, -⟩ | ⟨-, hold, -, hfirst, -⟩ <;>
    constructor <;> omega

/-- A center of a filter with one stage reads its window, which is staged for it. -/
theorem Reach.centerOne (hl : d.Legal start count) (h2 : d.twoStage = false)
    (hp : Placed d start count carry a) (h0 : 0 ≤ a.f) (hlast : a.f ≤ d.last)
    (hF : F ∈ d.windowFrames a.f) :
    Reach d start count carry { a with f := a.f + 1 } F := by
  have ⟨hr, hs0, _, hend⟩ := hl
  have hle := hp.first_le
  have hF := window_range hr h0 hlast hF
  have htop : Cursor.top d start count carry { a with f := a.f + 1 } =
      min (a.f + 1 - 1 + d.radius) d.last := by
    refine top_oneStage h2 ?_
    rintro rfl
    rw [firstCenter_fresh] at hle
    simp only
    omega
  have hreach : d.rollReach = 2 * d.radius := by simp [Geometry.rollReach, h2]
  rw [Int.add_sub_cancel] at htop
  have hold : d.oldest start carry ≤ F := by
    have hlow := hF.1
    clear hF htop
    rcases begin_cases hl carry with ⟨-, hold, hfirst, -, -⟩ | ⟨-, hold, hfirst, -, -⟩ <;> omega
  exact ⟨hold, htop ▸ hF.2.1, htop ▸ hF.2.2⟩

/-- Once it has made an estimate the first stage is ahead of the next. -/
theorem Staged.ahead (hst : Staged d start count carry a)
    (hbegun : carry = false → d.firstFrame start count carry < a.frame) :
    min (a.frame - 1 + d.radius) d.last < a.center := by
  by_contra hlag
  obtain ⟨hc, heq⟩ := hst.behind_frame (by omega)
  have := hbegun hc
  omega

theorem top_ahead (hl : d.Legal start count) (h2 : d.twoStage = true)
    (hst : Staged d start count carry a)
    (hbegun : carry = false → d.firstFrame start count carry < a.frame) :
    a.top d start count carry = min (a.center - 1 + d.radius) d.last ∧
      min (a.frame - 1 + d.radius) d.last < a.center := by
  have hahead := hst.ahead hbegun
  refine ⟨top_twoStage hl h2 ?_, hahead⟩
  rintro rfl
  have := hbegun rfl
  have := hst.frame_le_last
  have := hl.radius_pos
  rw [firstFrame_fresh hl] at *
  omega

/-- A center of the second stage reads the middle of the windows staged for the first. -/
theorem Reach.centerTwo (hl : d.Legal start count) (h2 : d.twoStage = true)
    (hp : Placed d start count carry a) (hst : Staged d start count carry a) (h0 : 0 ≤ a.f)
    (hlast : a.f ≤ d.last) (hframe : min (a.f + d.radius) d.last < a.frame)
    (hF : F ∈ d.windowFrames a.f) :
    Reach d start count carry { a with f := a.f + 1 } F := by
  have ⟨hr, hs0, _, hend⟩ := hl
  have hle := hp.first_le
  have hF := window_range hr h0 hlast hF
  have hfar := hst.frame_le_f
  have hnear := hst.center_le_frame
  have ⟨htop, hahead⟩ := top_ahead hl h2 hst (by
    rintro rfl
    rw [firstFrame_fresh hl]
    rw [firstCenter_fresh] at hle
    omega)
  have htop' : Cursor.top d start count carry { a with f := a.f + 1 } =
      a.top d start count carry := by simp [Cursor.top, Cursor.upload, h2]
  have hring : d.windowRing = 4 * d.radius + 2 := by simp [Geometry.windowRing, h2, add_assoc]
  have hreach : d.rollReach = 4 * d.radius := by simp [Geometry.rollReach, h2]
  obtain ⟨hlow, hhigh, -⟩ := hF
  have hold : d.oldest start carry ≤ F := by
    clear htop htop' hahead hfar hnear hframe hhigh hring
    rcases begin_cases hl carry with ⟨-, hold, hfirst, -, -⟩ | ⟨-, hold, hfirst, -, -⟩ <;> omega
  clear hle hreach
  refine ⟨hold, ?_, ?_⟩
  · rw [htop', htop]
    clear hold hlow hfar hnear hring htop htop'
    omega
  · rw [htop', htop, hring]
    clear hold hhigh hahead hring htop htop'
    omega

/-- A finished frame's source is in the window of its last center. -/
theorem Reach.output (hl : d.Legal start count) (hp : Placed d start count carry a)
    (hst : d.twoStage = true → Staged d start count carry a) (hlast : a.out ≤ d.last)
    (hdue : min (a.out + d.radius) d.last < a.f) :
    Reach d start count carry { a with out := a.out + 1 } a.out := by
  have ⟨hr, hs0, _, hend⟩ := hl
  have hstart := hp.start_le
  have hle := hp.first_le
  have hout := hp.f_le_out
  have hold : d.oldest start carry ≤ start := by
    have hreach : 0 ≤ d.rollReach := by simp only [Geometry.rollReach]; split <;> omega
    simp only [Geometry.oldest]
    split <;> omega
  have hbegun : carry = false → d.firstCenter start count carry < a.f := by
    rintro rfl
    rw [firstCenter_fresh]
    omega
  cases h2 : d.twoStage with
  | false =>
    have htop : Cursor.top d start count carry { a with out := a.out + 1 } =
        min (a.f - 1 + d.radius) d.last := by
      refine top_oneStage h2 ?_
      rintro rfl
      exact hbegun rfl
    have hring : d.windowRing = 2 * d.radius + 2 := by simp [Geometry.windowRing, h2, add_assoc]
    constructor <;> omega
  | true =>
    have hst := hst h2
    have hfar := hst.frame_le_out
    have hnear := hst.center_le_frame
    have hlag : min (a.f - 1 + d.radius) d.last < a.frame := by
      by_contra hlag
      obtain ⟨hc, heq⟩ := hst.behind_f (by omega)
      have := hbegun hc
      omega
    have ⟨htop, hahead⟩ := top_ahead hl h2 hst (by
      rintro rfl
      rw [firstFrame_fresh hl]
      have := hbegun rfl
      rw [firstCenter_fresh] at this
      omega)
    have htop' : Cursor.top d start count carry { a with out := a.out + 1 } =
        a.top d start count carry := rfl
    have hring : d.windowRing = 4 * d.radius + 2 := by simp [Geometry.windowRing, h2, add_assoc]
    constructor <;> omega

/-- The source frames a call reads are held when it is made. -/
theorem Step.reach (hl : d.Legal start count) (hcarry : carry = true → 1 ≤ start)
    (hp : Placed d start count carry a) (hst : d.twoStage = true → Staged d start count carry a)
    (hs : Step d start count a v b) (hF : F ∈ d.reads v) : Reach d start count carry b F := by
  have ⟨hf0, _, hc0⟩ := first_nonneg hl hcarry
  have hfirst := hp.first_le
  have hlst : d.last = d.numFrames - 1 := rfl
  have hend := hl.end_le
  cases hs with
  | basicCenter h2 hw hframe hcenter =>
    have hle := (hst h2).first_le_center
    exact .basicCenter hl h2 (hst h2) (by omega) (by omega) hF
  | basicFrame h2 hw hframe hcenter =>
    obtain rfl : F = a.frame := List.mem_singleton.mp hF
    exact .basicFrame hl h2 (hst h2) (by omega) hcenter
  | center hw hframe =>
    have hlast := hw.le_out
    cases h2 : d.twoStage with
    | false => exact .centerOne hl h2 hp (by omega) (by omega) hF
    | true => exact .centerTwo hl h2 hp (hst h2) (by omega) (by omega) (hframe h2) hF
  | output hlt hdue =>
    obtain rfl : F = a.out := List.mem_singleton.mp hF
    exact .output hl hp hst (by omega) hdue

end Reach

/-- What the windows of a walk are: the membership that `Holds.window` asks for. -/
theorem Stages.mem {hi hi' c : Int} (h : Stages d v hi hi' c) (F : Int) :
    F ∈ d.stages v ↔ max 0 (c - d.radius) ≤ F ∧ F ≤ hi' := by
  rw [h.frames, h.top_eq, mem_windowFrames h.nonneg h.le_last]

theorem Stages.oldest_le {hi hi' : Int} (hl : d.Legal start count)
    (h : Stages d v hi hi' (a.upload d))
    (hfirst : (begin d start count carry).upload d ≤ a.upload d) :
    d.oldest start carry ≤ max 0 (a.upload d - d.radius) := by
  have hr := hl.radius_pos
  have hs0 := hl.start_nonneg
  have hle := h.le_last
  have hreach := d.rollReach_eq
  rw [show (begin d start count carry).upload d = if d.twoStage then
    d.firstBasic start count carry else d.firstCenter start count carry from rfl] at hfirst
  rcases begin_cases hl carry with ⟨-, hold, hf, -, hb⟩ | ⟨-, hold, hf, -, hb⟩
  · split at hfirst <;> omega
  · split at hfirst
    · rename_i h2
      rw [if_pos h2] at hreach
      omega
    · rename_i h2
      rw [if_neg h2] at hreach
      omega

/-! ## Between chunks -/

theorem top_begin_carry (hl : d.Legal start count) :
    (begin d start count true).top d start count true =
      min (start - 1 + d.rollReach) d.last := by
  have hr := hl.radius_pos
  rw [Cursor.top_of_begun (by simp)]
  simp only [Cursor.upload, begin, firstCenter_carry hl, firstBasic_carry, Geometry.rollReach]
  split <;> omega

theorem top_begin_fresh (hl : d.Legal start count) :
    (begin d start count false).top d start count false = d.oldest start false - 1 := by
  have hr := hl.radius_pos
  rw [Cursor.top, if_pos ⟨rfl, rfl⟩]
  simp only [Cursor.upload, begin, firstCenter_fresh, firstBasic_fresh hl, Geometry.oldest,
    Geometry.rollReach, Bool.false_eq_true, if_false]
  split <;> omega

theorem top_done (hl : d.Legal start count) (h : Done d start count a) :
    a.top d start count carry = min (start + count - 1 + d.rollReach) d.last := by
  have hr := hl.radius_pos
  have hend := hl.end_le
  have hcount := hl.count_pos
  have hs0 := hl.start_nonneg
  have hlst : d.last = d.numFrames - 1 := rfl
  have hf := h.f_eq
  cases h2 : d.twoStage with
  | false =>
    rw [top_oneStage h2 fun _ => by omega]
    simp only [Geometry.rollReach, h2, Bool.false_eq_true, if_false]
    omega
  | true =>
    have hc := h.center_eq h2
    rw [top_twoStage hl h2 fun _ => by omega]
    simp only [Geometry.rollReach, h2, if_true]
    omega

theorem rollReach_nonneg (hl : d.Legal start count) : 0 ≤ d.rollReach := by
  have := hl.radius_pos
  simp only [Geometry.rollReach]
  split <;> omega

/-! ## The whole plan of a chunk -/

theorem Step.top_le (hl : d.Legal start count) (hcarry : carry = true → 1 ≤ start)
    (hp : Placed d start count carry a) (hst : d.twoStage = true → Staged d start count carry a)
    (hs : Step d start count a v b) :
    a.top d start count carry ≤ b.top d start count carry := by
  rcases hs.staged hl hcarry hp hst with ⟨-, htop⟩ | hstages
  · exact htop.ge
  · rw [hstages.top_eq]
    exact hstages.le_top

/-- Every frame a chunk reads lies between its oldest and the end of its reach. -/
theorem walkChunk_reads (hl : d.Legal start count) (hcarry : carry = true → 1 ≤ start)
    (hv : v ∈ d.walkChunk start count carry) {F : Int} (hF : F ∈ d.reads v) :
    d.oldest start carry ≤ F ∧ F ≤ min (start + count - 1 + d.rollReach) d.last := by
  obtain ⟨c, hpath, hdone⟩ := walkChunk_path hl hcarry
  obtain ⟨pre, post, hwalk⟩ := List.append_of_mem hv
  rw [hwalk] at hpath
  obtain ⟨a, b, hpre, hs, hpost⟩ := hpath.split
  have ha := hpre.invariant (onWalk_begin hl) fun _ _ _ hs h => h.step hl hs
  have hreach := hs.reach hl hcarry ha.placed ha.staged hF
  have htop : OnWalk d start count carry c ∧
      b.top d start count carry ≤ c.top d start count carry :=
    hpost.invariant
      (P := fun c => OnWalk d start count carry c ∧
        b.top d start count carry ≤ c.top d start count carry)
      ⟨ha.step hl hs, Int.le_refl _⟩
      fun _ _ _ hs h => ⟨h.1.step hl hs, h.2.trans (hs.top_le hl hcarry h.1.placed h.1.staged)⟩
  rw [top_done hl hdone] at htop
  exact ⟨hreach.oldest_le, hreach.le_top.trans htop.2⟩

/-- A plan when the walk is at `c`: the ring is filled up to there, with frames behind `hi`. -/
structure Filling (d : Geometry) (ring start count : Int) (carry : Bool) (hi : Int)
    (c : Cursor) (p : Staging) : Prop where
  onWalk : OnWalk d start count carry c
  le_top : hi ≤ c.top d start count carry
  held : Holds ring (d.oldest start carry) (c.top d start count carry) p.promised
  uploads : ∀ F ∈ p.uploads, hi < F ∧ F ≤ c.top d start count carry

theorem Filling.step (hl : d.Legal start count) (hcarry : carry = true → 1 ≤ start)
    (hring : 2 * d.radius < ring) {hi : Int} (h : Filling d ring start count carry hi a p)
    (hs : Step d start count a v b) :
    Filling d ring start count carry hi b (d.planVisit ring p v) := by
  have hle := h.le_top
  have hwalk := h.onWalk
  rw [planVisit_eq, promise_foldl]
  rcases hs.staged hl hcarry hwalk.placed hwalk.staged with ⟨hnil, htop⟩ | hstages
  · rw [hnil]
    refine ⟨hwalk.step hl hs, htop ▸ hle, ?_, ?_⟩
    · rw [htop]
      exact h.held
    · rw [htop, missing, List.append_nil]
      exact h.uploads
  · have hold : d.oldest start carry ≤ max 0 (a.upload d - d.radius) := by
      refine hstages.oldest_le hl ?_
      simp only [Cursor.upload, begin]
      split
      · rename_i h2
        exact (hwalk.staged h2).first_le_center
      · exact hwalk.placed.first_le
    have hreach := hstages.reaches
    have hlt := hstages.le_top
    have heq := hstages.top_eq
    have hsize : b.top d start count carry - max 0 (a.upload d - d.radius) < ring := by omega
    refine ⟨hwalk.step hl hs, by omega, ?_, fun F hF => ?_⟩
    · exact h.held.window hstages.mem hreach (by omega) hsize
    · rcases List.mem_append.mp hF with hF | hF
      · have := h.uploads F hF
        exact ⟨this.1, by omega⟩
      · have := h.held.missing_mem hstages.mem hold (by omega) hsize hF
        exact ⟨by omega, this.2⟩

/-- A chunk's plan fills the ring to the end of its reach, with frames that were not in it. -/
theorem plan_fills (hl : d.Legal start count) (hcarry : carry = true → 1 ≤ start)
    (hring : 2 * d.radius < ring) {promised : Int → Int}
    (hheld : carry = true → Holds ring start (min (start - 1 + d.rollReach) d.last) promised) :
    Holds ring (d.oldest start carry) (min (start + count - 1 + d.rollReach) d.last)
        (d.plan ring start count carry promised).promised ∧
      ∀ F ∈ (d.plan ring start count carry promised).uploads,
        (begin d start count carry).top d start count carry < F ∧
          F ≤ min (start + count - 1 + d.rollReach) d.last := by
  obtain ⟨c, hpath, hdone⟩ := walkChunk_path hl hcarry
  have hstart : Filling d ring start count carry
      ((begin d start count carry).top d start count carry) (begin d start count carry)
      { promised := if carry then promised else fun _ => -1, uploads := [] } := by
    refine ⟨onWalk_begin hl, Int.le_refl _, ?_, fun F hF => by cases hF⟩
    cases carry with
    | true =>
      rw [top_begin_carry hl]
      exact hheld rfl
    | false =>
      rw [top_begin_fresh hl]
      intro F h1 h2
      omega
  have hend := hpath.foldl hstart fun _ _ _ _ hs h => h.step hl hcarry hring hs
  have hheld := hend.held
  have huploads := hend.uploads
  rw [top_done hl hdone] at hheld huploads
  exact ⟨hheld, huploads⟩

end Windows

end NssFactory.Rolling
