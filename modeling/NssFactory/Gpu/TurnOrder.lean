import NssFactory.Cuda.Turns
import NssFactory.Vulkan.Turns

/-!
# The order of rolling turns, for both drivers

`turns_in_order` is the ticket protocol as a whole. Turns of one chunk that landed on one Vulkan
slot are recorded together: `together_recorded` is such a run, and what the drivers keep apart
on a Vulkan slot or lane are groups of turns that entered together.
-/

namespace NssFactory.Tickets

/-- **Rolling tickets.** However the requests interleave, on either driver: the turns of a
rolling state run in ticket order, one at a time, and each passes on its ticket once; a CUDA
slot has one turn inside, a Vulkan slot records one group and a lane carries one; a turn that
carries on runs directly after the one that planned the chunk before it; and no turn of a
failed chain runs or is carried on from. -/
theorem turns_in_order (d : Driver) :
    (∀ es s, Path (Cuda.Slots.Step d) .init es s →
      (∀ slot i, InOrder (es.filterMap (Cuda.TurnStep.on slot i)) (s.roll slot i)) ∧
        (∀ slot i j n m, s.Inside slot i n → s.Inside slot j m → i = j ∧ n = m) ∧
        ∀ e s', Cuda.Slots.Step d s e s' →
          Advances (s.roll e.slot e.index) e.event (s'.roll e.slot e.index)) ∧
    ∀ es s, Path (Vulkan.RollSlots.Step d) .init es s →
      (∀ slot i, InOrder (es.filterMap (Vulkan.TurnStep.on slot i)) (s.roll slot i)) ∧
        (∀ slot i n g j m h, s.Recording slot i n g → s.Recording slot j m h → g = h) ∧
        (∀ slot lane i n g j m h, s.OnLane slot lane i n g → s.OnLane slot lane j m h → g = h) ∧
        ∀ e s', Vulkan.RollSlots.Step d s e s' → ∀ slot i v, e.on slot i = some v →
          Advances (s.roll slot i) v (s'.roll slot i) :=
  ⟨fun _ _ h => Cuda.Slots.in_order h, fun _ _ h => Vulkan.RollSlots.in_order h⟩

/-- Two slots; each of two planes has a rolling state of its own. -/
def twoPlanes : Driver where
  slots := 2
  rollStates := 2
  rollState plane := plane

/-- A chunk, and one that carries on from it and is refused after the first failed. -/
def cudaRun : List Cuda.TurnStep :=
  [⟨0, 0, .plan 0 0 2 false⟩, ⟨0, 0, .plan 0 2 2 true⟩, ⟨0, 0, .enter 0 true⟩, ⟨0, 0, .fail 0⟩,
    ⟨0, 0, .enter 1 false⟩, ⟨0, 0, .fail 1⟩]

/-- Two planes of a chunk in one submission, whose wait fails after the turns were left. -/
def vulkanRun : List Vulkan.TurnStep :=
  [.turn 0 0 (.plan 0 0 2 false), .turn 1 1 (.plan 1 0 2 false), .turn 0 0 (.plan 0 2 2 true),
    .enter 0 [(0, 0)] true, .submit 0, .turn 0 0 (.leave 0), .waitFail 0,
    .turn 0 0 (.failLate 0), .freeLane 0, .enter 0 [(0, 1)] false]

theorem turns_in_order_runs :
    (∃ s, Path (Cuda.Slots.Step twoPlanes) .init cudaRun s ∧
      (cudaRun.filterMap (Cuda.TurnStep.on 0 0)).filterMap Event.finished =
        List.range (s.roll 0 0).serving) ∧
    ∃ s, Path (Vulkan.RollSlots.Step twoPlanes) .init vulkanRun s ∧
      (vulkanRun.filterMap (Vulkan.TurnStep.on 0 0)).filterMap Event.finished =
        List.range (s.roll 0 0).serving := by
  obtain ⟨s, hs⟩ : ∃ s, Path (Cuda.Slots.Step twoPlanes) .init cudaRun s :=
    ⟨_, .cons (.plan rfl) (.cons (.plan rfl) (.cons (.enter rfl rfl rfl rfl rfl)
      (.cons (.fail rfl rfl) (.cons (.enter rfl rfl rfl rfl rfl) (.cons (.fail rfl rfl)
        (.nil _))))))⟩
  obtain ⟨s', hs'⟩ : ∃ s, Path (Vulkan.RollSlots.Step twoPlanes) .init vulkanRun s := by
    refine ⟨_, .cons (.plan rfl) (.cons (.plan rfl) (.cons (.plan rfl) (.cons
      (.enter (by decide) (by decide) rfl rfl ?_ ?_) (.cons (.submit rfl rfl) (.cons
        (.leave ⟨_, .head _, rfl, rfl, .head _⟩ rfl rfl) (.cons (.waitFail rfl rfl ?_) (.cons
          (.failLate ⟨_, .head _, rfl, rfl, .head _⟩ rfl rfl) (.cons (.freeLane rfl rfl ?_) (.cons
            (.enter (by decide) (by decide) rfl rfl ?_ ?_) (.nil _))))))))))⟩
    · rintro _ (_ | ⟨_, ⟨⟩⟩)
      exact ⟨_, rfl, rfl, rfl⟩
    · refine ⟨fun _ => ?_, fun _ => rfl⟩
      rintro _ (_ | ⟨_, ⟨⟩⟩) t -
      nofun
    · rintro _ (_ | ⟨_, ⟨⟩⟩) t ht
      cases ht
      rfl
    · rintro _ (_ | ⟨_, ⟨⟩⟩) t ht
      cases ht
      rfl
    · rintro _ (_ | ⟨_, ⟨⟩⟩)
      exact ⟨_, rfl, rfl, rfl⟩
    · refine ⟨nofun, fun h => ?_⟩
      have hlast := h (0, 1) (.head _) _ rfl
      exact absurd rfl hlast
  exact ⟨⟨s, hs, (((turns_in_order twoPlanes).1 _ _ hs).1 0 0).passed⟩,
    s', hs', (((turns_in_order twoPlanes).2 _ _ hs').1 0 0).passed⟩

/-- One slot, so that both planes of a chunk land on it. -/
def oneSlot : Driver where
  slots := 1
  rollStates := 2
  rollState plane := plane

/-- Two turns can be recorded on one slot together: those that entered together. -/
theorem together_recorded : ¬∀ (d : Driver) es s, Path (Vulkan.RollSlots.Step d) .init es s →
    ∀ slot i n g j m h, s.Recording slot i n g → s.Recording slot j m h → i = j ∧ n = m := by
  intro hall
  obtain ⟨s, hs, hfirst, hsecond⟩ : ∃ s, Path (Vulkan.RollSlots.Step oneSlot) .init
      [.turn 0 0 (.plan 0 0 2 false), .turn 0 1 (.plan 1 0 2 false),
        .enter 0 [(0, 0), (1, 0)] true] s ∧ s.Recording 0 0 0 0 ∧ s.Recording 0 1 0 0 := by
    refine ⟨_, .cons (.plan rfl) (.cons (.plan rfl) (.cons
      (.enter (by decide) (by decide) rfl rfl ?_ ?_) (.nil _))),
      ⟨_, rfl, rfl, rfl, .head _⟩, ⟨_, rfl, rfl, rfl, .tail _ (.head _)⟩⟩
    · rintro _ (_ | ⟨_, _ | ⟨_, ⟨⟩⟩⟩) <;> exact ⟨_, rfl, rfl, rfl⟩
    · refine ⟨fun _ => ?_, fun _ => rfl⟩
      rintro _ (_ | ⟨_, _ | ⟨_, ⟨⟩⟩⟩) t - <;> nofun
  have heq := hall oneSlot _ s hs 0 0 0 0 1 0 0 hfirst hsecond
  exact absurd heq.1 (by decide)

end NssFactory.Tickets
