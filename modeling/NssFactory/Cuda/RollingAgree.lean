import NssFactory.Cuda.Chunks
import NssFactory.Host.RollingFill

/-!
# The rolling chunks of both backends

The CPU's chunks and the turns of a CUDA rolling state have windows, rings and carries of their own.
Where a center contributes the same slices, the planes of every frame are the same.
-/

namespace NssFactory.Cuda

open Bm3d

variable {n plane : Nat} {F : Type*} [FloatArith F] {d : Driver n (Pixels F) (Sums F) (Sums F)}
variable {b : Bm3dData F} {ch : Fin n}

/-- A channel of a plane of the driver is a plane of the CPU's filter: the kernels of a center
contribute the same slices from the same clip, and sum and finish them alike. -/
structure Mirrors (d : Driver n (Pixels F) (Sums F) (Sums F)) (b : Bm3dData F) (plane : Nat) (ch : Fin n) :
    Prop where
  radius : d.radius = b.radius
  numFrames : d.numFrames = b.numFrames
  clip : ∀ frame, (d.planes plane).clip frame ch = b.node frame plane
  sums : (d.planes plane).sums = ⟨Sums.zero, Sums.add, aggregateFinish⟩
  filter : ∀ center t, 0 ≤ t → t ≤ 2 * b.radius → (d.planes plane).filter center
    ((d.windowFrames center).map (d.planes plane).clip) (d.references plane center) t ch =
      b.slices plane center t
  filters : b.filters plane = true
  out : d.channelOut ch = true

theorem Mirrors.total (h : Mirrors d b plane ch) (f : Int) :
    (d.sliding plane ch).total f = (b.sliding plane).total f := by
  simp only [Sliding.total, Sliding.sumBelow, Driver.sliding, Bm3dData.sliding, Rolling.Geometry.last, h.sums,
    h.radius, h.numFrames]
  refine List.foldl_ext _ _ _ fun sum c hc => ?_
  rw [Int.mem_range_iff] at hc
  rw [h.filter c _ (by omega) (by omega)]

/-- **Both backends agree.** However the chunks of a CUDA state are planned and run, and whatever chunk
the CPU fills, afresh or on a carry, the plane written of a frame is the one filled. -/
theorem written_iff_filled (h : Mirrors d b plane ch) (hg : d.OneGuide)
    (device : RollState n (Pixels F) (Sums F)) (es : List Event) (hl : ∀ e ∈ es, e.Legal d.toGeometry) :
    ∃ l, es.foldlM (Life.step d) (Life.init device) = .ok l ∧
      ∀ start count carry, b.Legal start count → (∀ c, carry = some c → Bm3dData.Carried b start c) →
        ∀ turn run, (turn, run) ∈ l.finished → turn.plane = plane →
          ∀ f, turn.start ≤ f → f < turn.start + turn.count → start ≤ f → f < start + count →
            ∀ px, (f - turn.start, ch, px) ∈ run.written ↔
              (b.rollingFillChunkCarried start count carry).1.frames (f - start) plane = some px := by
  obtain ⟨l, last, hrun, hagrees⟩ := (agrees_init device).events hg hl
  refine ⟨l, hrun, ?_⟩
  rintro start count carry hlegal hc turn run hmem rfl f h0 h1 h2 h3 px
  obtain ⟨hw, hnext⟩ := Bm3dData.runPlane_done turn.plane hlegal fun c h => (hc c h).right
  have hcpu : (b.rollingFillChunkCarried start count carry).1.frames (f - start) turn.plane =
      some (aggregateFinish ((b.sliding turn.plane).total f) (b.node f turn.plane)) := by
    simp only [Bm3dData.rollingFillChunkCarried, h.filters, if_true]
    exact hw.finished f h2 (by omega)
  have hcuda : (d.planes turn.plane).sums.finish ((d.sliding turn.plane ch).total f)
      ((d.planes turn.plane).clip f ch) =
      aggregateFinish ((b.sliding turn.plane).total f) (b.node f turn.plane) := by
    rw [h.total, h.clip, h.sums]
  rw [hcpu, ← hcuda, (hagrees.finished _ hmem).2.1, List.mem_flatMap]
  simp only [Driver.results, List.mem_map, List.mem_filter, Prod.mk.injEq, Option.some.injEq]
  constructor
  · rintro ⟨f', -, c, -, hf, rfl, rfl⟩
    obtain rfl : f' = f := by omega
    rfl
  · rintro rfl
    exact ⟨f, Int.mem_range_iff.mpr ⟨h0, h1⟩, ch, ⟨List.mem_finRange _, h.out⟩, rfl, rfl, rfl⟩

attribute [local instance] Bm3dData.instFloatArithInt

/-- The CPU's clip of five frames, on CUDA. -/
def countingPlanes : Driver 1 (Pixels Int) (Sums Int) (Sums Int) where
  radius := 1
  numFrames := 5
  twoStage := false
  name := "BM3D"
  sharedMatch := false
  guideClip := false
  channelOut _ := true
  basicOut _ := false
  planes p := {
    fused := true
    basicActive := false
    basicFused := false
    clip := fun f _ => Bm3dData.counting.node f p
    guide := fun f _ => Bm3dData.counting.node f p
    sums := ⟨Sums.zero, Sums.add, aggregateFinish⟩
    basicSums := ⟨Sums.zero, Sums.add, aggregateFinish⟩
    filter := fun c frames _ t ch => ⟨fun i => frames.getD t.toNat 0 ch i * c, fun _ => 1⟩
    basicFilter := fun _ _ _ _ => Sums.zero }

theorem countingPlanes_mirrors : Mirrors countingPlanes Bm3dData.counting 0 0 := by
  refine ⟨rfl, rfl, fun _ => rfl, rfl, fun c t h0 h1 => ?_, rfl, rfl⟩
  change t ≤ 2 * 1 at h1
  obtain rfl | rfl | rfl : t = 0 ∨ t = 1 ∨ t = 2 := by omega
  all_goals rfl

theorem written_iff_filled_counting : ∃ l, [.plan 0 1 2 true, .run].foldlM (Life.step countingPlanes)
    (Life.init ⟨0, 0, 0, fun _ _ => Sums.zero, fun _ _ => Sums.zero⟩) = .ok l ∧
      ∀ turn run, (turn, run) ∈ l.finished → turn.plane = 0 → turn.start ≤ 2 → 2 < turn.start + turn.count →
        ∀ px, (2 - turn.start, 0, px) ∈ run.written ↔
          (Bm3dData.counting.rollingFillChunkCarried 0 5 none).1.frames (2 - 0) 0 = some px := by
  have hlegal : countingPlanes.Legal 1 2 := ⟨by decide, by decide, by decide, by decide⟩
  obtain ⟨l, hrun, hsame⟩ := written_iff_filled countingPlanes_mirrors (nofun : countingPlanes.OneGuide) _
    [.plan 0 1 2 true, .run] (by rintro _ (_ | ⟨_, _ | ⟨_, ⟨⟩⟩⟩) <;> first | exact hlegal | trivial)
  exact ⟨l, hrun, fun turn run hmem hplane h0 h1 => hsame 0 5 none ⟨by decide, by decide, by decide, by decide⟩
    nofun turn run hmem hplane 2 h0 h1 (by decide) (by decide)⟩

end NssFactory.Cuda
