import NssFactory.Lib.Streams

/-!
# Frames on the device

What a request queues to read a plane of a frame that is on the device and to give one to whoever
reads it next.
-/

namespace NssFactory.Cuda

open Streams

/-- What the imports of a stream come to. -/
structure Imports where
  /-- The timeline that the stream signals is imported. -/
  timeline : Bool
  /-- The ready semaphore of a frame's plane is imported. -/
  semaphore : Nat → Nat → Bool
  /-- The imports are full when a plane is mapped, and one is dropped for it. -/
  full : Nat → Bool

/-- A stream and the frames it reads. -/
structure Port (S E L : Type*) where
  imports : Imports
  stream : S
  planes : Nat
  /-- The plane has a ready semaphore. -/
  waits : Nat → Nat → Bool
  /-- A plane is ready behind this event of whoever writes it. -/
  ready : Nat → Nat → E
  source : Nat → Nat → L

structure GpuStream where
  hostSync : Bool
  hostWaited : List Nat
  mapCalls : Nat
  nextValue : Nat

namespace GpuStream

variable {S E L V : Type*}

def begin (p : Port S E L) (g : GpuStream) : GpuStream :=
  { g with hostSync := !p.imports.timeline, hostWaited := [] }

/-- `wait_input`. A frame the host waits for is waited for as a whole, and once. -/
def waitInput (p : Port S E L) (frame plane : Nat) (g : GpuStream) :
    List (Call S E L V) × GpuStream :=
  if !g.hostSync && p.waits frame plane && p.imports.semaphore frame plane then
    ([.wait p.stream (p.ready frame plane)], g)
  else
    let g := { g with hostSync := g.hostSync || p.waits frame plane }
    if g.hostSync && !g.hostWaited.contains frame then
      (((List.range p.planes).map (p.ready frame)).map .syncEvent,
        { g with hostWaited := frame :: g.hostWaited })
    else ([], g)

def mapPlane (p : Port S E L) (g : GpuStream) : List (Call S E L V) × GpuStream :=
  (if p.imports.full (g.mapCalls + 1) then [.syncStream p.stream] else [],
    { g with mapCalls := g.mapCalls + 1 })

/-- The value that is signalled, for the plane's producer. -/
def publish (p : Port S E L) (g : GpuStream) :
    List (Call S E L V) × GpuStream × Option Nat :=
  if g.hostSync then ([], g, none)
  else
    ([.queue p.stream (.signal (g.nextValue + 1))], { g with nextValue := g.nextValue + 1 },
      some (g.nextValue + 1))

/-! ### What they leave alone -/

section

variable {p : Port S E L} {g : GpuStream} {frame plane : Nat} {l : L} {C : Set (View S E)}

theorem waitInput_spares : ∀ c ∈ (g.waitInput p frame plane : List (Call S E L V) × _).1,
    c.Spares l C := by
  unfold waitInput
  intro c hc
  split at hc
  · rw [List.mem_singleton] at hc
    subst hc
    trivial
  · dsimp only at hc
    split at hc
    · obtain ⟨e, -, rfl⟩ := List.mem_map.mp hc
      trivial
    · exact absurd hc List.not_mem_nil

theorem mapPlane_spares : ∀ c ∈ (g.mapPlane p : List (Call S E L V) × _).1, c.Spares l C := by
  unfold mapPlane
  intro c hc
  dsimp only at hc
  split at hc
  · rw [List.mem_singleton] at hc
    subst hc
    trivial
  · exact absurd hc List.not_mem_nil

theorem publish_spares : ∀ c ∈ (g.publish p : List (Call S E L V) × _).1, c.Spares l C := by
  unfold publish
  intro c hc
  split at hc
  · exact absurd hc List.not_mem_nil
  · rw [List.mem_singleton] at hc
    subst hc
    exact List.not_mem_nil

end

end GpuStream

end NssFactory.Cuda
