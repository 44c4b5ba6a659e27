import NssFactory.Cuda.Weights
import NssFactory.Vulkan.Weights

/-!
# The weight maps of NLM on both devices

`weight_maps` says of any number of sets and requests, in any order, what the weight cache
promises of a run in which no lease is lost: a constructor returns, and a request completes its
lease once the kernel is queued. `weight_maps_lost` has a run of each backend that does not.
-/

namespace NssFactory.Gpu

/-- A kernel loads what the frame before it saved, kernels of one set are in order, no two
requests have one set, and a set is given back when its request ends. -/
theorem weight_maps {Q S F : Type*} [DecidableEq Q] [DecidableEq S] (count : Nat) :
    (∀ calls (s : Cuda.WeightState Q), Cuda.WeightState.Run count calls s →
      Safe s.cache s.ops s.leases) ∧
    ∀ env calls (s : Vulkan.WeightState S F), Vulkan.WeightState.Run env count calls s →
      Safe s.cache s.ops s.leases :=
  ⟨fun _ _ h => h.inv.sound.toSafe, fun _ _ _ h => h.inv.sound.toSafe⟩

section Runs

/-- A device whose calls succeed. -/
def plainEnv : Vulkan.SlotEnv Nat := ⟨fun _ => 0, 0, false, 0, 30000, fun _ => ""⟩

def allWell : Vulkan.SubmitResult := ⟨Vulkan.vkSuccess, true, Vulkan.vkSuccess⟩

open Cuda.WeightState in
/-- Frame 1 loads what frame 0 has saved, on another stream or slot. -/
theorem weight_maps_twoFrames :
    (∃ s : Cuda.WeightState Nat,
      s.ops.filterMap (·.act) = [⟨0, none, some 0⟩, ⟨1, some 0, some 1⟩] ∧
        Safe s.cache s.ops s.leases) ∧
    ∃ s : Vulkan.WeightState Nat Unit,
      s.ops.filterMap (·.act) = [⟨0, none, some 0⟩, ⟨1, some 0, some 1⟩] ∧
        Safe s.cache s.ops s.leases := by
  constructor
  · have hrun : ∃ s : Cuda.WeightState Nat, Cuda.WeightState.Run 2
        [.construct 0 7 fun _ => true, .kernel 0, .queued 0 true true, .destroy 0 true true,
          .construct 1 8 fun _ => true, .kernel 1, .queued 1 true true, .destroy 1 true true] s ∧
        s.ops.filterMap (·.act) = [⟨0, none, some 0⟩, ⟨1, some 0, some 1⟩] :=
      ⟨_, .cons ⟨rfl, rfl⟩ <| .cons ⟨trivial, rfl⟩ <| .cons ⟨by simp [Completes], rfl⟩ <|
        .cons ⟨by simp [Completes], rfl⟩ <| .cons ⟨rfl, rfl⟩ <| .cons ⟨trivial, rfl⟩ <|
        .cons ⟨by simp [Completes], rfl⟩ <| .cons ⟨by simp [Completes], rfl⟩ <| .nil _, rfl⟩
    obtain ⟨s, hrun, hops⟩ := hrun
    exact ⟨s, hops, (weight_maps (Q := Nat) (S := Nat) (F := Unit) 2).1 _ s hrun⟩
  · have hrun : ∃ s : Vulkan.WeightState Nat Unit, Vulkan.WeightState.Run plainEnv 2
        [.construct 0 1 (fun _ => Vulkan.vkSuccess) fun _ => true,
          .call 1 (.commands .compute Vulkan.vkSuccess),
          .call 1 (.commands .download Vulkan.vkSuccess), .submit 0 fun _ => allWell, .submitted 0,
          .destroy 0,
          .construct 1 2 (fun _ => Vulkan.vkSuccess) fun _ => true,
          .call 2 (.commands .compute Vulkan.vkSuccess), .submit 1 fun _ => allWell, .submitted 1,
          .destroy 1, .call 1 (.wait Vulkan.vkSuccess allWell Vulkan.vkSuccess), .finish 0] s ∧
        s.ops.filterMap (·.act) = [⟨0, none, some 0⟩, ⟨1, some 0, some 1⟩] :=
      ⟨_, .cons ⟨rfl, rfl⟩ <| .cons ⟨trivial, rfl⟩ <| .cons ⟨trivial, rfl⟩ <|
        .cons ⟨fun l hl => .inl (by cases hl; rfl), rfl⟩ <| .cons ⟨trivial, rfl⟩ <|
        .cons ⟨trivial, rfl⟩ <| .cons ⟨rfl, rfl⟩ <| .cons ⟨trivial, rfl⟩ <|
        .cons ⟨fun l hl => .inl (by cases hl; rfl), rfl⟩ <| .cons ⟨trivial, rfl⟩ <|
        .cons ⟨trivial, rfl⟩ <| .cons ⟨trivial, rfl⟩ <| .cons ⟨trivial, rfl⟩ <| .nil _, rfl⟩
    obtain ⟨s, hrun, hops⟩ := hrun
    exact ⟨s, hops, (weight_maps (Q := Nat) (S := Nat) (F := Unit) 2).2 _ _ s hrun⟩

/-- On CUDA a wait of a constructor fails: the set is busy when the only request has ended. On
Vulkan the download of frame 0 is not submitted after its compute stage was: the kernel of
frame 5 saves the same set without a wait. -/
theorem weight_maps_lost :
    (∃ s : Cuda.WeightState Nat,
      Path (fun s call s' => s.step call = some s') (.start 1) [.construct 0 7 fun _ => false] s ∧
        (∀ l ∈ s.leases, l.phase = .ended) ∧ (∃ x ∈ s.cache.sets, x.busy = true) ∧
        ¬ Safe s.cache s.ops s.leases) ∧
    ∃ s : Vulkan.WeightState Nat Unit,
      Path (fun s call s' => s.step plainEnv call = some s') (.start 1)
        [.construct 0 1 (fun _ => Vulkan.vkSuccess) fun _ => true,
          .call 1 (.commands .compute Vulkan.vkSuccess),
          .call 1 (.commands .download Vulkan.vkSuccess),
          .submit 0 fun i => if i = .download then ⟨Vulkan.vkSuccess, true, -1⟩ else allWell,
          .destroy 0,
          .construct 5 2 (fun _ => Vulkan.vkSuccess) fun _ => true,
          .call 2 (.commands .compute Vulkan.vkSuccess), .submit 1 fun _ => allWell] s ∧
        s.ops.map (·.act) = [some ⟨0, none, some 0⟩, some ⟨5, none, some 0⟩] ∧
        ¬ Before s.ops 0 1 ∧ ¬ Safe s.cache s.ops s.leases := by
  constructor
  · refine ⟨_, .cons rfl (.nil _), ?_, ?_, fun hsafe => ?_⟩
    · exact List.forall_mem_singleton.mpr rfl
    · exact ⟨_, List.mem_singleton_self _, rfl⟩
    · obtain ⟨l, hl, hlive, -⟩ := hsafe.returned 0 _ rfl rfl
      obtain rfl := List.mem_singleton.mp hl
      rcases hlive with h | ⟨_, h | h⟩ <;> cases h
  · have hrun : ∃ s : Vulkan.WeightState Nat Unit,
        Path (fun s call s' => s.step plainEnv call = some s') (.start 1)
          [.construct 0 1 (fun _ => Vulkan.vkSuccess) fun _ => true,
            .call 1 (.commands .compute Vulkan.vkSuccess),
            .call 1 (.commands .download Vulkan.vkSuccess),
            .submit 0 fun i => if i = .download then ⟨Vulkan.vkSuccess, true, -1⟩ else allWell,
            .destroy 0,
            .construct 5 2 (fun _ => Vulkan.vkSuccess) fun _ => true,
            .call 2 (.commands .compute Vulkan.vkSuccess), .submit 1 fun _ => allWell] s ∧
          s.ops = [⟨⟨1, 1⟩, [], some ⟨0, none, some 0⟩⟩, ⟨⟨2, 1⟩, [], some ⟨5, none, some 0⟩⟩] :=
      ⟨_, .cons rfl <| .cons rfl <| .cons rfl <| .cons rfl <| .cons rfl <| .cons rfl <|
        .cons rfl <| .cons rfl <| .nil _, rfl⟩
    obtain ⟨s, hrun, hops⟩ := hrun
    have hrace : ¬ Before s.ops 0 1 := by
      rw [hops]
      intro hbefore
      obtain ⟨b, hb, hwaits⟩ := hbefore.waits_ne_nil
      cases hb
      exact hwaits rfl
    refine ⟨s, hrun, by rw [hops]; rfl, hrace, fun hsafe => hrace ?_⟩
    apply hsafe.ordered 0 1 ⟨⟨1, 1⟩, [], some ⟨0, none, some 0⟩⟩ ⟨⟨2, 1⟩, [], some ⟨5, none, some 0⟩⟩
      (by decide) (by rw [hops]; rfl) (by rw [hops]; rfl)
    exact ⟨_, _, 0, rfl, rfl, .inr rfl, .inr rfl, .inl rfl⟩

end Runs

end NssFactory.Gpu
