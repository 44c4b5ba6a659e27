import NssFactory.Cuda.GpuStream

/-!
# A frame of the CUDA LSSC filter

The streams of a slot, what the filter knows of its planes and what a request finds. The kernels
are functions of what they read. What they write in several buffers of one set is held as one
location: the dictionary with its Gram matrix and the samples, the coefficients with the
reconstructed patches, and the two sums of the aggregation.
-/

namespace NssFactory.Cuda.Lssc

open Streams

inductive Stream where
  | stream
  | copy
  | load
  | front (b : Nat)
  | side (b : Nat)
  /-- The thread of a request. -/
  | host (i : Nat)
  /-- Whoever writes a plane of a request's source frame. -/
  | producer (i plane : Nat)
deriving DecidableEq

/-- The kernels for a plane. -/
structure Kernels (V : Type*) where
  pack : V → V
  dictionary : V → V
  code : V → V → V
  aggregate : V → V
  finish : V → V → V

structure Filter (V : Type*) where
  planes : Nat
  /-- The plane's sigma is zero. -/
  bypassed : Nat → Bool
  kernels : Nat → Kernels V
  gpu : Bool
  depth : Nat
  /-- The memory limit has room for a staging region per plane. -/
  roomy : Bool

namespace Filter

variable {V : Type*} (d : Filter V)

def filtered : List Nat := (List.range d.planes).filter fun plane => !d.bypassed plane

def copied : List Nat := (List.range d.planes).filter fun plane => d.bypassed plane

def denoised : Nat := d.filtered.length

def regions : Nat := if 1 < d.denoised && d.roomy then d.denoised else 1

def whole : Bool := d.regions == d.denoised

/-- `make_slot` gives a slot its streams for frames on the device; the slot of a filter that leaves
every plane alone is made without. -/
def slotGpu : Bool := d.gpu && 0 < d.denoised

def outStream : Stream := if d.whole then .copy else .stream

/-- The staging region of a plane, as the loops over the planes count them. -/
def region (plane : Nat) : Nat :=
  if d.whole then (List.range plane).countP fun q => !d.bypassed q else 0

end Filter

/-- What a request finds. -/
structure Request (V : Type*) where
  imports : Imports
  importsLoad : Imports
  /-- The source's plane has a ready semaphore. -/
  waits : Nat → Bool
  /-- The planes that are page-locked. -/
  directIn : Nat → Bool
  directOut : Nat → Bool
  pixels : Nat → V

variable {V : Type*} {d : Filter V} {plane : Nat}

theorem mem_filtered {q : Nat} : q ∈ d.filtered ↔ q < d.planes ∧ d.bypassed q = false := by
  simp [Filter.filtered]

theorem filtered_nodup : d.filtered.Nodup := List.nodup_range.filter _

/-- A filtered plane's slot has its streams for frames on the device. -/
theorem slotGpu_eq {q : Nat} (hq : q ∈ d.filtered) : d.slotGpu = d.gpu := by
  have : 0 < d.denoised := List.length_pos_of_mem hq
  simp [Filter.slotGpu, this]

/-- As a whole, each plane has a region of its own. -/
theorem region_ne {q : Nat} (hw : d.whole) (hplane : plane ∈ d.filtered) (hq : q ∈ d.filtered)
    (hne : q ≠ plane) : d.region q ≠ d.region plane := by
  have key : ∀ a b, a ∈ d.filtered → a < b → (List.range a).countP (fun q => !d.bypassed q) <
      (List.range b).countP (fun q => !d.bypassed q) := by
    intro a b ha hab
    have hsub : (List.range (a + 1)).Sublist (List.range b) := List.range_sublist.mpr hab
    have hle := hsub.countP_le (p := fun q => !d.bypassed q)
    have hone : (List.range (a + 1)).countP (fun q => !d.bypassed q) =
        (List.range a).countP (fun q => !d.bypassed q) + 1 := by
      simp [List.range_succ, (mem_filtered.mp ha).2]
    omega
  simp only [Filter.region, hw, if_true]
  rcases Nat.lt_or_gt_of_ne hne with h | h
  · exact Nat.ne_of_lt (key _ _ hq h)
  · exact Nat.ne_of_gt (key _ _ hplane h)

end NssFactory.Cuda.Lssc
