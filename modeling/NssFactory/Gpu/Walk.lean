import NssFactory.Lib.Loops
import NssFactory.Lib.Steps
import NssFactory.Frontend.Temporal

/-!
# The walk over a rolling chunk

`walkChunk` is `walk_chunk` of the CUDA and Vulkan group drivers (the two are the same): the
centers of a chunk and the frames they finish, as the list of calls on the visitor. `Step` is
what each call needs to be next, and `walkChunk_path` that the walk is a run of such steps
from `begin` to `done`. All that the drivers do during a walk is proved over `Step`.
-/

namespace NssFactory.Rolling

/-- What the walk reads of a driver. -/
structure Geometry where
  radius : Int
  numFrames : Int
  twoStage : Bool
  deriving DecidableEq

/-- A call on the visitor. -/
inductive Visit where
  | basicCenter (center next : Int)
  | basicFrame (frame : Int)
  | center (center next : Int)
  | output (frame : Int)
  deriving DecidableEq

/-- The frame a call outputs. -/
def Visit.output? : Visit → Option Int
  | .output frame => some frame
  | _ => none

/-- The variables of the walk, with the calls made so far. -/
structure Walk where
  frame : Int
  center : Int
  out : Int
  visits : List Visit

namespace Geometry

variable (d : Geometry)

def last : Int := d.numFrames - 1

def lastCenter (start count : Int) : Int := min (start + count - 1 + d.radius) d.last

def firstCenter (start count : Int) (carry : Bool) : Int :=
  if carry then min (start + d.radius) (d.lastCenter start count + 1)
  else max 0 (start - d.radius)

def firstFrame (start count : Int) (carry : Bool) : Int :=
  if carry then min (start - 1 + 2 * d.radius) d.last + 1
  else max 0 (d.firstCenter start count carry - d.radius)

def firstBasic (start count : Int) (carry : Bool) : Int :=
  if carry then min (start - 1 + 3 * d.radius) d.last + 1
  else max 0 (d.firstFrame start count carry - d.radius)

/-- `for (; center <= hi; ++center) v.basic_center(center, frame)` -/
def basicCenters (hi : Int) (w : Walk) : Walk :=
  (Int.range w.center (hi + 1)).foldl
    (fun w c => { w with center := c + 1, visits := w.visits ++ [Visit.basicCenter c w.frame] }) w

/-- The first stage's estimates up to frame `f + radius`, each after its centers. -/
def basicFrames (f : Int) (w : Walk) : Walk :=
  (Int.range w.frame (min (f + d.radius) d.last + 1)).foldl
    (fun w frame =>
      let w := basicCenters (min (frame + d.radius) d.last) w
      { w with frame := frame + 1, visits := w.visits ++ [Visit.basicFrame frame] }) w

/-- The frames before `fin` whose last center is at or before `f`. -/
def outputs (fin f : Int) (w : Walk) : Walk :=
  ((Int.range w.out fin).takeWhile fun out => min (out + d.radius) d.last ≤ f).foldl
    (fun w out => { w with out := out + 1, visits := w.visits ++ [Visit.output out] }) w

/-- One center of the (second) stage. -/
def walkCenter (fin : Int) (w : Walk) (f : Int) : Walk :=
  let w := if d.twoStage then d.basicFrames f w else w
  d.outputs fin f { w with visits := w.visits ++ [Visit.center f w.out] }

def walkChunk (start count : Int) (carry : Bool) : List Visit :=
  let w := (Int.range (d.firstCenter start count carry) (d.lastCenter start count + 1)).foldl
    (d.walkCenter (start + count))
    { frame := d.firstFrame start count carry, center := d.firstBasic start count carry
      out := start, visits := [] }
  w.visits ++ (Int.range w.out (start + count)).map .output

/-- A chunk of the clip. -/
structure Legal (start count : Int) : Prop where
  radius_pos : 1 ≤ d.radius
  start_nonneg : 0 ≤ start
  count_pos : 1 ≤ count
  end_le : start + count ≤ d.numFrames

end Geometry

/-! ## The walk as steps -/

/-- Where a walk is: the next center, the next estimate and first-stage center, the next
output. -/
structure Cursor where
  f : Int
  frame : Int
  center : Int
  out : Int

/-- Center `f` is one of the chunk, and the next output waits for it. -/
structure Waits (d : Geometry) (start count f out : Int) : Prop where
  center_le : f ≤ d.lastCenter start count
  out_lt : out < start + count
  le_out : f ≤ min (out + d.radius) d.last

/-- A call of a chunk's walk: what holds when it is made, and where it leaves the walk. -/
inductive Step (d : Geometry) (start count : Int) : Cursor → Visit → Cursor → Prop
  | basicCenter {c : Cursor} : d.twoStage = true → Waits d start count c.f c.out →
      c.frame ≤ min (c.f + d.radius) d.last → c.center ≤ min (c.frame + d.radius) d.last →
      Step d start count c (.basicCenter c.center c.frame) { c with center := c.center + 1 }
  | basicFrame {c : Cursor} : d.twoStage = true → Waits d start count c.f c.out →
      c.frame ≤ min (c.f + d.radius) d.last → min (c.frame + d.radius) d.last < c.center →
      Step d start count c (.basicFrame c.frame) { c with frame := c.frame + 1 }
  | center {c : Cursor} : Waits d start count c.f c.out →
      (d.twoStage = true → min (c.f + d.radius) d.last < c.frame) →
      Step d start count c (.center c.f c.out) { c with f := c.f + 1 }
  | output {c : Cursor} : c.out < start + count → min (c.out + d.radius) d.last < c.f →
      Step d start count c (.output c.out) { c with out := c.out + 1 }

/-- Where the walk of a chunk begins. -/
def begin (d : Geometry) (start count : Int) (carry : Bool) : Cursor where
  f := d.firstCenter start count carry
  frame := d.firstFrame start count carry
  center := d.firstBasic start count carry
  out := start

/-- Where the walk of a chunk ends: behind the last center of its last frame. -/
structure Done (d : Geometry) (start count : Int) (c : Cursor) : Prop where
  f_eq : c.f = min (start + count - 1 + d.radius) d.last + 1
  out_eq : c.out = start + count
  frame_eq : d.twoStage = true → c.frame = min (start + count - 1 + 2 * d.radius) d.last + 1
  center_eq : d.twoStage = true → c.center = min (start + count - 1 + 3 * d.radius) d.last + 1

/-- Where the variables of a walk are, when its next center is `f`. -/
def Walk.cursor (w : Walk) (f : Int) : Cursor := ⟨f, w.frame, w.center, w.out⟩

/-- The walk goes on from `w` to `w'` by steps. -/
def Extends (d : Geometry) (start count f : Int) (w : Walk) (f' : Int) (w' : Walk) : Prop :=
  ∃ vs, w'.visits = w.visits ++ vs ∧ Path (Step d start count) (w.cursor f) vs (w'.cursor f')

section Extends

variable {d : Geometry} {start count f f' f'' : Int} {w w' w'' : Walk} {carry : Bool}

theorem Extends.refl : Extends d start count f w f w := ⟨[], by simp, .nil _⟩

theorem Extends.trans (h : Extends d start count f w f' w')
    (h' : Extends d start count f' w' f'' w'') : Extends d start count f w f'' w'' := by
  obtain ⟨vs, hvs, hp⟩ := h
  obtain ⟨ws, hws, hp'⟩ := h'
  exact ⟨vs ++ ws, by rw [hws, hvs, List.append_assoc], hp.append hp'⟩

theorem Extends.step {v : Visit} (hv : w'.visits = w.visits ++ [v])
    (hs : Step d start count (w.cursor f) v (w'.cursor f')) : Extends d start count f w f' w' :=
  ⟨[v], hv, .cons hs (.nil _)⟩

/-- The first-stage centers of the next estimate. -/
theorem basicCenters_spec {hi : Int} (h2 : d.twoStage = true)
    (hw : Waits d start count f w.out) (hframe : w.frame ≤ min (f + d.radius) d.last)
    (hhi : hi = min (w.frame + d.radius) d.last) (hcenter : w.center ≤ hi + 1) :
    Extends d start count f w f (Geometry.basicCenters hi w) ∧
      (Geometry.basicCenters hi w).frame = w.frame ∧ (Geometry.basicCenters hi w).out = w.out ∧
      (Geometry.basicCenters hi w).center = hi + 1 := by
  apply Loops.foldl_range_induct
    (fun c (s : Walk) => Extends d start count f w f s ∧ s.frame = w.frame ∧ s.out = w.out ∧
      s.center = c) _ hcenter ⟨.refl, rfl, rfl, rfl⟩
  rintro c s hc hchi ⟨hext, hfr, hout, rfl⟩
  refine ⟨hext.trans (.step rfl (.basicCenter h2 ?_ ?_ ?_)), hfr, hout, rfl⟩
  · simp only [Walk.cursor, hout]; exact hw
  · simp only [Walk.cursor, hfr]; exact hframe
  · simp only [Walk.cursor, hfr]; omega

/-- The estimates of the next center: each of them has its own centers behind it. -/
theorem basicFrames_spec (h2 : d.twoStage = true) (hw : Waits d start count f w.out)
    (hframe : w.frame ≤ min (f + d.radius) d.last + 1)
    (hcenter : w.center ≤ min (w.frame + d.radius) d.last + 1)
    (hlag : w.frame ≤ min (f + d.radius) d.last ∨
      w.center = min (w.frame - 1 + d.radius) d.last + 1) :
    Extends d start count f w f (d.basicFrames f w) ∧ (d.basicFrames f w).out = w.out ∧
      (d.basicFrames f w).frame = min (f + d.radius) d.last + 1 ∧
      (d.basicFrames f w).center = min ((d.basicFrames f w).frame - 1 + d.radius) d.last + 1 := by
  have key := Loops.foldl_range_induct
    (fun x (s : Walk) => Extends d start count f w f s ∧ s.out = w.out ∧ s.frame = x ∧
      s.center ≤ min (x + d.radius) d.last + 1 ∧
      (x ≤ w.frame ∧ s.center = w.center ∨ s.center = min (x - 1 + d.radius) d.last + 1))
    (fun w frame =>
      let w := Geometry.basicCenters (min (frame + d.radius) d.last) w
      { w with frame := frame + 1, visits := w.visits ++ [Visit.basicFrame frame] })
    hframe (s := w) ⟨.refl, rfl, rfl, hcenter, .inl ⟨Int.le_refl _, rfl⟩⟩ ?_
  · obtain ⟨hext, hout, hfr, -, hc⟩ := key
    refine ⟨hext, hout, hfr, ?_⟩
    rw [← Geometry.basicFrames] at hext hout hfr hc
    rw [hfr]
    omega
  · rintro x s hx hxf ⟨hext, hout, rfl, hc, -⟩
    obtain ⟨hext', hfr', hout', hc'⟩ := basicCenters_spec h2 (hout ▸ hw) (by omega) rfl hc
    simp only
    generalize Geometry.basicCenters (min (s.frame + d.radius) d.last) s = s' at *
    rw [← hfr'] at hc' hxf ⊢
    refine ⟨hext.trans (hext'.trans (.step rfl (.basicFrame h2 ?_ ?_ ?_))), ?_⟩
    · simp only [Walk.cursor, hout', hout]; exact hw
    · simp only [Walk.cursor]; omega
    · simp only [Walk.cursor]; omega
    · exact ⟨hout'.trans hout, trivial, by omega, .inr (by omega)⟩

theorem outputs_eq (fin : Int) : d.outputs fin f w =
    if w.out < fin ∧ min (w.out + d.radius) d.last ≤ f then
      d.outputs fin f { w with out := w.out + 1, visits := w.visits ++ [Visit.output w.out] }
    else w := by
  by_cases hlt : w.out < fin
  · by_cases hdue : min (w.out + d.radius) d.last ≤ f
    · rw [if_pos ⟨hlt, hdue⟩, Geometry.outputs, Geometry.outputs, Loops.range_cons hlt,
        List.takeWhile_cons_of_pos (by simpa using hdue), List.foldl_cons]
    · rw [if_neg (fun h => hdue h.2), Geometry.outputs, Loops.range_cons hlt,
        List.takeWhile_cons_of_neg (by simpa using hdue), List.foldl_nil]
  · rw [if_neg (fun h => hlt h.1), Geometry.outputs, Loops.range_empty (by omega),
      List.takeWhile_nil, List.foldl_nil]

/-- The outputs due after the centers before `f`. -/
theorem outputs_spec {fin : Int} (hfin : fin = start + count) (hout : w.out ≤ fin) :
    Extends d start count f w f (d.outputs fin (f - 1) w) ∧
      (d.outputs fin (f - 1) w).frame = w.frame ∧
      (d.outputs fin (f - 1) w).center = w.center ∧
      w.out ≤ (d.outputs fin (f - 1) w).out ∧ (d.outputs fin (f - 1) w).out ≤ fin ∧
      (w.out < (d.outputs fin (f - 1) w).out →
        min ((d.outputs fin (f - 1) w).out - 1 + d.radius) d.last < f) ∧
      ((d.outputs fin (f - 1) w).out < fin →
        f ≤ min ((d.outputs fin (f - 1) w).out + d.radius) d.last) := by
  induction hn : (fin - w.out).toNat generalizing w with
  | zero =>
    rw [outputs_eq, if_neg (by omega)]
    exact ⟨.refl, rfl, rfl, Int.le_refl _, hout, by omega, by omega⟩
  | succ k ih =>
    rw [outputs_eq]
    split
    · rename_i hdue
      obtain ⟨hext, hfr, hc, h1, h2, h3, h4⟩ :=
        ih (w := { w with out := w.out + 1, visits := w.visits ++ [Visit.output w.out] })
          (by simp only; omega) (by simp only; omega)
      refine ⟨.trans (.step rfl (.output ?_ ?_)) hext, hfr, hc, ?_, h2, ?_, h4⟩
      · simp only [Walk.cursor]; omega
      · simp only [Walk.cursor]; omega
      · simp only at h1; omega
      · intro _
        by_cases heq : w.out + 1 < (d.outputs fin (f - 1)
          { w with out := w.out + 1, visits := w.visits ++ [Visit.output w.out] }).out
        · exact h3 heq
        · simp only at h1
          omega
    · exact ⟨.refl, rfl, rfl, Int.le_refl _, hout, by omega, by omega⟩

/-- The outputs left when the centers are done. -/
theorem restOutputs_path {c : Cursor} (hle : c.out ≤ start + count)
    (h : ∀ n, n < start + count → min (n + d.radius) d.last < c.f) :
    Path (Step d start count) c ((Int.range c.out (start + count)).map .output)
      { c with out := start + count } := by
  induction hn : (start + count - c.out).toNat generalizing c with
  | zero =>
    rw [Loops.range_empty (by omega), show start + count = c.out by omega]
    exact .nil c
  | succ k ih =>
    rw [Loops.range_cons (by omega), List.map_cons]
    refine .cons (.output (by omega) (h _ (by omega))) ?_
    exact ih (c := { c with out := c.out + 1 }) (by simp only; omega) h (by simp only; omega)

/-- The walk before center `f`: the outputs before it are made, and the first stage is where
the center before left it. -/
structure Between (d : Geometry) (start count : Int) (carry : Bool) (f : Int) (w : Walk) :
    Prop where
  start_le : start ≤ w.out
  le_end : w.out ≤ start + count
  made : start < w.out → min (w.out - 1 + d.radius) d.last < f
  due : w.out < start + count → f ≤ d.lastCenter start count →
    f ≤ min (w.out + d.radius) d.last
  stage : (carry = false ∧ f = d.firstCenter start count false ∧
        w.frame = d.firstFrame start count false ∧ w.center = d.firstBasic start count false) ∨
      d.twoStage = false ∨
      (w.frame = min (f - 1 + d.radius) d.last + 1 ∧
        w.center = min (w.frame - 1 + d.radius) d.last + 1)

/-- One center of the walk. -/
theorem Between.walkCenter (hl : d.Legal start count)
    (h : Between d start count carry f w) (hlast : f ≤ d.lastCenter start count) :
    Extends d start count f w (f + 1) (d.walkCenter (start + count) w f) ∧
      Between d start count carry (f + 1) (d.walkCenter (start + count) w f) := by
  have ⟨hr, h0, hcount, hend⟩ := hl
  have hlst : d.last = d.numFrames - 1 := rfl
  have hle := h.le_end
  have hlt : w.out < start + count := by
    by_contra hge
    have := h.made (by omega)
    simp only [Geometry.lastCenter] at hlast
    rw [show w.out = start + count by omega] at this
    omega
  have hw : Waits d start count f w.out := ⟨hlast, hlt, h.due hlt hlast⟩
  have hstage := h.stage
  simp only [Geometry.firstCenter, Geometry.firstFrame, Geometry.firstBasic, Bool.false_eq_true,
    if_false] at hstage
  -- the first stage is brought up to the estimates that this center needs
  obtain ⟨w', hw', hext, hout, hst⟩ : ∃ w', w' = (if d.twoStage then d.basicFrames f w else w) ∧
      Extends d start count f w f w' ∧ w'.out = w.out ∧
      (d.twoStage = true → w'.frame = min (f + d.radius) d.last + 1 ∧
        w'.center = min (w'.frame - 1 + d.radius) d.last + 1) := by
    cases h2 : d.twoStage with
    | false => exact ⟨w, rfl, .refl, rfl, by simp⟩
    | true =>
      have hle : f ≤ d.last := by have := hw.le_out; omega
      have hstage : w.frame ≤ min (f + d.radius) d.last + 1 ∧
          w.center ≤ min (w.frame + d.radius) d.last + 1 ∧
          (w.frame ≤ min (f + d.radius) d.last ∨
            w.center = min (w.frame - 1 + d.radius) d.last + 1) := by
        rcases hstage with ⟨-, hf, hfr, hc⟩ | hone | ⟨hfr, hc⟩
        · omega
        · simp [h2] at hone
        · omega
      have hspec := basicFrames_spec h2 hw hstage.1 hstage.2.1 hstage.2.2
      exact ⟨_, rfl, hspec.1, hspec.2.1, fun _ => hspec.2.2⟩
  obtain ⟨w'', hw''⟩ : ∃ w'', w'' = { w' with visits := w'.visits ++ [Visit.center f w'.out] } :=
    ⟨_, rfl⟩
  have hcenter : Extends d start count f w' (f + 1) w'' := by
    subst hw''
    have hwait : Waits d start count (w'.cursor f).f (w'.cursor f).out := by
      simp only [Walk.cursor, hout]
      exact hw
    refine .step rfl (.center hwait fun h2 => ?_)
    have := hst h2
    simp only [Walk.cursor]
    omega
  have hle'' : w''.out ≤ start + count := by
    subst hw''
    simp only
    omega
  have houts := outputs_spec (d := d) (f := f + 1) rfl hle''
  rw [Int.add_sub_cancel] at houts
  have hwalk : d.walkCenter (start + count) w f = d.outputs (start + count) f w'' := by
    rw [hw'', hw', Geometry.walkCenter]
  rw [hwalk]
  obtain ⟨hext', hfr', hc', hge, hle', hmade, hdue⟩ := houts
  have hfields : w''.out = w.out ∧ w''.frame = w'.frame ∧ w''.center = w'.center := by
    rw [hw'']
    exact ⟨hout, rfl, rfl⟩
  have hstart := h.start_le
  refine ⟨hext.trans (hcenter.trans hext'), ⟨by omega, hle', ?_, fun hlt _ => hdue hlt, ?_⟩⟩
  · intro _
    by_cases hmore : w''.out < (d.outputs (start + count) f w'').out
    · exact hmade hmore
    · have := h.made
      rw [show (d.outputs (start + count) f w'').out = w.out by omega]
      omega
  · right
    cases h2 : d.twoStage with
    | false => exact .inl rfl
    | true =>
      have := hst h2
      right
      omega

/-- The walk of a chunk is a run from its begin to its end. -/
theorem walkChunk_path (hl : d.Legal start count) (hcarry : carry = true → 1 ≤ start) :
    ∃ c, Path (Step d start count) (begin d start count carry)
      (d.walkChunk start count carry) c ∧ Done d start count c := by
  have ⟨hr, h0, hcount, hend⟩ := hl
  have hlst : d.last = d.numFrames - 1 := rfl
  obtain ⟨w0, hw0⟩ : ∃ w : Walk, w = { frame := d.firstFrame start count carry
                                       center := d.firstBasic start count carry
                                       out := start, visits := [] } := ⟨_, rfl⟩
  have hbegin : Between d start count carry (d.firstCenter start count carry) w0 := by
    subst hw0
    refine ⟨Int.le_refl _, by simp only; omega, by simp only; omega, ?_, ?_⟩
    · simp only [Geometry.firstCenter, Geometry.lastCenter]
      cases carry with
      | false => simp only [Bool.false_eq_true, if_false]; omega
      | true => simp only [if_true]; omega
    · cases carry with
      | false => exact .inl ⟨rfl, rfl, rfl, rfl⟩
      | true =>
        have := hcarry rfl
        simp only [Geometry.firstCenter, Geometry.lastCenter, Geometry.firstFrame,
          Geometry.firstBasic, if_true]
        omega
  have hfirst : d.firstCenter start count carry ≤ d.lastCenter start count + 1 := by
    simp only [Geometry.firstCenter, Geometry.lastCenter]
    cases carry with
    | false => simp only [Bool.false_eq_true, if_false]; omega
    | true => simp only [if_true]; omega
  have key := Loops.foldl_range_induct
    (fun f w => Extends d start count (d.firstCenter start count carry) w0 f w ∧
      Between d start count carry f w)
    (d.walkCenter (start + count)) hfirst (s := w0) ⟨.refl, hbegin⟩ fun f w _ hf ⟨hext, hb⟩ =>
      have hstep := hb.walkCenter hl (by omega)
      ⟨hext.trans hstep.1, hstep.2⟩
  obtain ⟨w, hw⟩ : ∃ w, w = (Int.range (d.firstCenter start count carry)
    (d.lastCenter start count + 1)).foldl (d.walkCenter (start + count)) w0 := ⟨_, rfl⟩
  rw [← hw] at key
  obtain ⟨⟨vs, hvs, hpath⟩, hb⟩ := key
  have hlast : d.lastCenter start count = min (start + count - 1 + d.radius) d.last := rfl
  have hmade : Path (Step d start count) (w.cursor (d.lastCenter start count + 1))
      ((Int.range w.out (start + count)).map .output)
      { w.cursor (d.lastCenter start count + 1) with out := start + count } :=
    restOutputs_path hb.le_end fun n hn => by simp only [Walk.cursor, hlast]; omega
  refine ⟨{ w.cursor (d.lastCenter start count + 1) with out := start + count },
    ?_, ⟨?_, rfl, ?_, ?_⟩⟩
  · have hwalk : d.walkChunk start count carry =
        vs ++ (Int.range w.out (start + count)).map .output := by
      rw [Geometry.walkChunk, ← hw0, ← hw, hvs, hw0, List.nil_append]
    rw [hwalk]
    rw [hw0] at hpath
    exact hpath.append hmade
  · simp only [Walk.cursor, hlast]
  all_goals
    intro h2
    simp only [Walk.cursor]
    rcases hb.stage with ⟨-, hf, -⟩ | hone | hframe
    · simp only [Geometry.firstCenter, Bool.false_eq_true, if_false] at hf
      omega
    · simp [h2] at hone
    · omega

/-- A walk outputs its frames in order, each once. -/
theorem path_outputs {c c' : Cursor} {vs : List Visit} (h : Path (Step d start count) c vs c') :
    c.out ≤ c'.out ∧ vs.filterMap Visit.output? = Int.range c.out c'.out := by
  induction h with
  | nil c => exact ⟨Int.le_refl _, (Loops.range_empty (Int.le_refl _)).symm⟩
  | cons hs _ ih =>
    cases hs with
    | basicCenter => exact ih
    | basicFrame => exact ih
    | center => exact ih
    | output =>
      obtain ⟨hle, hrest⟩ := ih
      simp only at hle hrest
      exact ⟨by omega, by rw [Loops.range_cons (by omega), ← hrest]; rfl⟩

theorem walkChunk_outputs (hl : d.Legal start count) (hcarry : carry = true → 1 ≤ start) :
    (d.walkChunk start count carry).filterMap Visit.output? =
      Int.range start (start + count) := by
  obtain ⟨c, hpath, hdone⟩ := walkChunk_path hl hcarry
  rw [(path_outputs hpath).2, hdone.out_eq]
  rfl

/-- A carrying chunk of a filter with two stages. -/
example : Geometry.walkChunk ⟨1, 9, true⟩ 2 2 true =
    [.basicCenter 5 4, .basicFrame 4, .center 3 2, .output 2,
      .basicCenter 6 5, .basicFrame 5, .center 4 3, .output 3] := by decide

end Extends

/-! ## What holds during a walk -/

/-- The bounds between the centers of a walk and its outputs. -/
structure Placed (d : Geometry) (start count : Int) (carry : Bool) (c : Cursor) : Prop where
  start_le : start ≤ c.out
  out_le : c.out ≤ start + count
  first_le : d.firstCenter start count carry ≤ c.f
  f_le_last : c.f ≤ d.last + 1
  out_le_f : c.out ≤ c.f + d.radius + 1
  f_le_out : c.f ≤ c.out + d.radius + 1

/-- The bounds between the first stage of a walk and its second. A first stage that is behind
its lag has done nothing since a fresh start. -/
structure Staged (d : Geometry) (start count : Int) (carry : Bool) (c : Cursor) : Prop where
  first_le_frame : d.firstFrame start count carry ≤ c.frame
  first_le_center : d.firstBasic start count carry ≤ c.center
  frame_le_last : c.frame ≤ d.last + 1
  center_le_last : c.center ≤ d.last + 1
  f_le_frame : c.f - 1 - d.radius ≤ c.frame
  frame_le_f : c.frame ≤ c.f + d.radius + 1
  frame_le_out : c.frame ≤ c.out + 2 * d.radius + 1
  frame_le_center : c.frame ≤ c.center + d.radius + 1
  center_le_frame : c.center ≤ c.frame + d.radius + 1
  behind_f : c.frame ≤ min (c.f - 1 + d.radius) d.last →
    carry = false ∧ c.f = d.firstCenter start count carry
  behind_frame : c.center ≤ min (c.frame - 1 + d.radius) d.last →
    carry = false ∧ c.frame = d.firstFrame start count carry

section Placed

variable {d : Geometry} {start count : Int} {carry : Bool} {a b : Cursor} {v : Visit}

theorem firstCenter_fresh : d.firstCenter start count false = max 0 (start - d.radius) := rfl

theorem firstFrame_fresh (hl : d.Legal start count) :
    d.firstFrame start count false = max 0 (start - 2 * d.radius) := by
  have := hl.radius_pos
  simp only [Geometry.firstFrame, firstCenter_fresh, Bool.false_eq_true, if_false]
  omega

theorem firstBasic_fresh (hl : d.Legal start count) :
    d.firstBasic start count false = max 0 (start - 3 * d.radius) := by
  have := hl.radius_pos
  simp only [Geometry.firstBasic, firstFrame_fresh hl, Bool.false_eq_true, if_false]
  omega

theorem firstCenter_carry (hl : d.Legal start count) :
    d.firstCenter start count true = min (start - 1 + d.radius) d.last + 1 := by
  have := hl.count_pos
  simp only [Geometry.firstCenter, Geometry.lastCenter, if_true]
  omega

theorem firstFrame_carry :
    d.firstFrame start count true = min (start - 1 + 2 * d.radius) d.last + 1 := rfl

theorem firstBasic_carry :
    d.firstBasic start count true = min (start - 1 + 3 * d.radius) d.last + 1 := rfl

theorem first_nonneg (hl : d.Legal start count) (hcarry : carry = true → 1 ≤ start) :
    0 ≤ d.firstCenter start count carry ∧ 0 ≤ d.firstFrame start count carry ∧
      0 ≤ d.firstBasic start count carry := by
  have ⟨hr, h0, hcount, hend⟩ := hl
  have hlst : d.last = d.numFrames - 1 := rfl
  cases carry with
  | false =>
    rw [firstCenter_fresh, firstFrame_fresh hl, firstBasic_fresh hl]
    omega
  | true =>
    have := hcarry rfl
    rw [firstCenter_carry hl, firstFrame_carry, firstBasic_carry]
    omega

theorem placed_begin (hl : d.Legal start count) :
    Placed d start count carry (begin d start count carry) := by
  have ⟨hr, h0, hcount, hend⟩ := hl
  have hlst : d.last = d.numFrames - 1 := rfl
  have hfirst : d.firstCenter start count carry ≤ d.last + 1 ∧
      start ≤ d.firstCenter start count carry + d.radius + 1 ∧
      d.firstCenter start count carry ≤ start + d.radius + 1 := by
    cases carry with
    | false => rw [firstCenter_fresh]; omega
    | true => rw [firstCenter_carry hl]; omega
  constructor <;> simp only [begin] <;> omega

theorem staged_begin (hl : d.Legal start count) :
    Staged d start count carry (begin d start count carry) := by
  have ⟨hr, h0, hcount, hend⟩ := hl
  have hlst : d.last = d.numFrames - 1 := rfl
  cases carry with
  | false =>
    constructor <;> simp only [begin, firstCenter_fresh, firstFrame_fresh hl, firstBasic_fresh hl]
    case behind_f => exact fun _ => ⟨trivial, trivial⟩
    case behind_frame => exact fun _ => ⟨trivial, trivial⟩
    all_goals omega
  | true =>
    constructor <;> simp only [begin, firstCenter_carry hl, firstFrame_carry, firstBasic_carry]
    all_goals omega

theorem Placed.step (hl : d.Legal start count) (h : Placed d start count carry a)
    (hs : Step d start count a v b) : Placed d start count carry b := by
  have ⟨hr, h0, hcount, hend⟩ := hl
  have hlst : d.last = d.numFrames - 1 := rfl
  obtain ⟨h1, h2, h3, h4, h5, h6⟩ := h
  cases hs with
  | basicCenter => exact ⟨h1, h2, h3, h4, h5, h6⟩
  | basicFrame => exact ⟨h1, h2, h3, h4, h5, h6⟩
  | center hw _ =>
    have := hw.le_out
    constructor <;> simp only <;> omega
  | output hlt hdue => constructor <;> simp only <;> omega

theorem Staged.step (hl : d.Legal start count) (hp : Placed d start count carry a)
    (h : Staged d start count carry a) (h2 : d.twoStage = true) (hs : Step d start count a v b) :
    Staged d start count carry b := by
  have ⟨hr, h0, hcount, hend⟩ := hl
  have hlst : d.last = d.numFrames - 1 := rfl
  have hple := hp.out_le
  obtain ⟨h1, h2, h3, h4, h5, h6, h7, h8, h9, h10, h11⟩ := h
  cases hs with
  | basicCenter _ hw hframe hcenter =>
    have := hw.le_out
    constructor <;> simp only
    case behind_f => exact h10
    case behind_frame => exact fun hlag => h11 (by omega)
    all_goals omega
  | basicFrame _ hw hframe hcenter =>
    have := hw.le_out
    constructor <;> simp only
    case behind_f => exact fun hlag => h10 (by omega)
    case behind_frame => omega
    all_goals omega
  | center hw hframe =>
    have := hw.le_out
    have := hframe ‹_›
    constructor <;> simp only
    case behind_f => omega
    case behind_frame => exact h11
    all_goals omega
  | output hlt hdue =>
    constructor <;> simp only
    case behind_f => exact h10
    case behind_frame => exact h11
    all_goals omega

/-- A cursor of the walk. -/
structure OnWalk (d : Geometry) (start count : Int) (carry : Bool) (c : Cursor) : Prop where
  placed : Placed d start count carry c
  staged : d.twoStage = true → Staged d start count carry c

theorem onWalk_begin (hl : d.Legal start count) :
    OnWalk d start count carry (begin d start count carry) :=
  ⟨placed_begin hl, fun _ => staged_begin hl⟩

theorem OnWalk.step (hl : d.Legal start count) (h : OnWalk d start count carry a)
    (hs : Step d start count a v b) : OnWalk d start count carry b :=
  ⟨h.placed.step hl hs, fun h2 => (h.staged h2).step hl h.placed h2 hs⟩

end Placed

end NssFactory.Rolling
